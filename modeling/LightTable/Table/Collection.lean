/-
  LightTable.Table.Collection
  ───────────────────────────
  Collections of tables: any setter calls on any of the tables created so far,
  with pointers to these tables as user data.

  Between the calls every table is sound and no string is held
  (`NestState.Collected`), so reading a table leaves the memory as it is
  (`World.Still`).
-/
import LightTable.Table.Getters
import LightTable.Table.Nested
import LightTable.Table.Writing

namespace LightTable

open Fuel

variable {w w' : World} {t : Addr} {tb : Table} {m : LMap}

/-! ## §1. Runs. -/

/-- A step: create a table, or call a setter of the table `t`. -/
inductive CollectStep where
  | create
  | set (t : Addr) (c : SetCall)

/-- One step; a setter gives its return code. -/
def NestState.collect (s : NestState) : CollectStep → Option (Int × NestState)
  | .create => do
      let (t, w) ← s.w.newTable
      return (0, { w := w, made := t :: s.made })
  | .set t c => do
      let (r, w) ← s.w.set t c
      return (r, { s with w := w })

/-- The pointer that a setter stores. -/
def Arg.pointer : Arg → Option Addr
  | .ud u => some u
  | _ => none

/-- Only tables that were created are used and stored. -/
def NestState.Inside (s : NestState) : CollectStep → Prop
  | .create => True
  | .set t c => t ∈ s.made ∧ ∀ u ∈ c.arg.pointer, u ∈ s.made

instance NestState.decidableInside (s : NestState) : ∀ e : CollectStep, Decidable (s.Inside e)
  | .create => isTrue trivial
  | .set t c => inferInstanceAs (Decidable (t ∈ s.made ∧ ∀ u ∈ c.arg.pointer, u ∈ s.made))

/-! ## §2. What every run keeps. -/

/-- Between the steps. -/
structure NestState.Collected (s : NestState) : Prop where
  pos : 0 < s.w.brk
  old : ∀ t ∈ s.made, 0 < t ∧ t < s.w.brk
  known : ∀ t, (s.w.tables t).isSome → t ∈ s.made
  idle : s.w.Idle
  rest : ∀ t ∈ s.made, ∃ tb m, s.w.Owns t tb m ∧ m.Wf

theorem NestState.start_collected : NestState.start.Collected where
  pos := Nat.one_pos
  old := fun t ht => absurd ht (by simp [NestState.start])
  known := fun t ht => absurd ht (by simp [NestState.start, World.empty])
  idle := World.empty_idle
  rest := fun t ht => absurd ht (by simp [NestState.start])

theorem NestState.Collected.sound {s : NestState} (h : s.Collected) (ht : t ∈ s.made) :
    ∃ tb m, s.w.Sound t tb m := by
  obtain ⟨tb, m, howns, hwf⟩ := h.rest t ht
  exact ⟨tb, m, howns, hwf, h.idle.tidy⟩

theorem NestState.Collected.create {s : NestState} (h : s.Collected)
    (hx : s.w.newTable = some (t, w')) : NestState.Collected { w := w', made := t :: s.made } := by
  have hidle := h.idle.newTable hx
  obtain ⟨rfl, hbrk, -, -, -, hother, tb, howns, -⟩ := World.of_newTable hx
  have hle : s.w.brk ≤ w'.brk := by
    rw [hbrk]
    exact Nat.le_add_right _ 2
  refine ⟨Nat.lt_of_lt_of_le h.pos hle, ?_, ?_, hidle, ?_⟩
  · intro t ht
    show 0 < t ∧ t < w'.brk
    rcases List.mem_cons.mp ht with rfl | ht
    · exact ⟨h.pos, by rw [hbrk]; exact Nat.lt_add_of_pos_right Nat.two_pos⟩
    · exact ⟨(h.old t ht).1, Nat.lt_of_lt_of_le (h.old t ht).2 hle⟩
  · intro t ht
    by_cases hts : t = s.w.brk
    · rw [hts]
      exact List.mem_cons_self
    · have ht : (w'.tables t).isSome := ht
      rw [hother t hts] at ht
      exact List.mem_cons_of_mem _ (h.known t ht)
  · intro t ht
    by_cases hts : t = s.w.brk
    · rw [hts]
      exact ⟨tb, LMap.new 29, howns, LMap.new_inv.toWf⟩
    · obtain ⟨tb', m', howns', hwf'⟩ := h.rest t ((List.mem_cons.mp ht).resolve_left hts)
      exact ⟨tb', m', howns'.moved (hother t hts) hle, hwf'⟩

/-- A setter call touches one table and hands out fresh addresses only. -/
theorem World.Sound.set_others (h : w.Sound t tb m) {c : SetCall} {r : Int}
    (hx : w.set t c = some (r, w')) :
    w.brk ≤ w'.brk ∧ ∀ t', t' ≠ t → w'.tables t' = w.tables t' := by
  cases h.set_case hx with
  | refused hc n hn hty hw =>
    rw [hw]
    exact ⟨Nat.le_refl _, fun t' _ => rfl⟩
  | swapped str harg n hn hty hup =>
    obtain ⟨w₂, heq, htables, hbrk, -⟩ := h.tidy.updateString (h.tidy.of_updateString hup) str
    rw [hup] at heq
    cases heq
    rw [htables, hbrk]
    exact ⟨Nat.le_succ _, fun t' _ => rfl⟩
  | insertedString str harg hn type hins =>
    obtain ⟨-, hframe, -⟩ :=
      (h.withString str).insertTable (show LType.string ≠ .nil by decide) hins
    have hle : w.brk + 2 ≤ w'.brk := hframe.brk
    exact ⟨Nat.le_trans (Nat.le_add_right _ 2) hle, hframe.tables⟩
  | insertedPlain hty type hins =>
    obtain ⟨-, hframe, -⟩ := h.insertTable c.arg.type_ne_nil hins
    exact ⟨hframe.brk, hframe.tables⟩

theorem NestState.Collected.set {s : NestState} (h : s.Collected) (ht : t ∈ s.made) {c : SetCall}
    {r : Int} (hx : s.w.set t c = some (r, w')) : NestState.Collected { s with w := w' } := by
  obtain ⟨tb, m, hs⟩ := h.sound ht
  obtain ⟨hidle, tb', m', hs'⟩ := h.idle.set hs hx
  obtain ⟨hle, hother⟩ := hs.set_others hx
  refine ⟨Nat.lt_of_lt_of_le h.pos hle,
    fun x hx => ⟨(h.old x hx).1, Nat.lt_of_lt_of_le (h.old x hx).2 hle⟩, ?_, hidle, ?_⟩
  · intro x hx
    by_cases hxt : x = t
    · rw [hxt]
      exact ht
    · have hx : (w'.tables x).isSome := hx
      rw [hother x hxt] at hx
      exact h.known x hx
  · intro x hx
    by_cases hxt : x = t
    · rw [hxt]
      exact ⟨tb', m', hs'.toOwns, hs'.wf⟩
    · obtain ⟨tb₁, m₁, howns₁, hwf₁⟩ := h.rest x hx
      exact ⟨tb₁, m₁, howns₁.moved (hother x hxt) hle, hwf₁⟩

/-- Every state that steps inside the collection reach. -/
theorem NestState.run_collected {steps : List CollectStep} {os : List Int} {s : NestState}
    (h : Run.run NestState.collect .start steps = some (os, s))
    (hin : Run.Along NestState.collect NestState.Inside .start steps) : s.Collected := by
  refine Run.run_inv_along NestState.collect (I := NestState.Collected) ?_ NestState.start_collected
    hin h
  intro s e o s' hs hins hx
  unfold NestState.collect at hx
  cases e with
  | create =>
    obtain ⟨⟨t, w'⟩, hnew, hx⟩ := Option.bind_eq_some_iff.mp hx
    cases hx
    exact hs.create hnew
  | set t c =>
    obtain ⟨⟨r, w'⟩, hset, hx⟩ := Option.bind_eq_some_iff.mp hx
    cases hx
    exact hs.set hins.1 hset

/-- There are fewer tables than addresses in use. -/
theorem NestState.Collected.card_lt {s : NestState} (h : s.Collected) :
    s.made.toFinset.card < s.w.brk := by
  have h0 : 0 ∉ s.made.toFinset := by
    intro h0
    exact Nat.lt_irrefl 0 (h.old 0 (List.mem_toFinset.mp h0)).1
  have hsub : insert 0 s.made.toFinset ⊆ Finset.range s.w.brk := by
    intro x hx
    rcases Finset.mem_insert.mp hx with rfl | hx
    · exact Finset.mem_range.mpr h.pos
    · exact Finset.mem_range.mpr (h.old x (List.mem_toFinset.mp hx)).2
  have hcard := Finset.card_le_card hsub
  rw [Finset.card_insert_of_notMem h0, Finset.card_range] at hcard
  exact hcard

/-! ## §3. Reading. -/

/-- What `_do_serialize` reads of the table at `t` leaves the memory as it
is. -/
structure World.Still (w : World) (tmp : Value) (t : Addr) : Prop where
  enumerated : ∀ keys w', w.enumerated t = some (keys, w') → w' = w
  subTable : ∀ r u w', w.subTable t r tmp = some (u, w') → w' = w
  valueText : ∀ r w' text, w.valueText t r tmp = some (w', text) → w' = w

/-- The plain getters search only. -/
theorem World.Owns.getPlain_still (h : w.Owns t tb m) (hm : m.Wf) {key : Key} {tmp : Value}
    {type : LType} {v : Word} (hx : w.getPlain t key tmp type = some (v, w')) : w' = w := by
  unfold World.getPlain at hx
  rw [h.searchTable hm] at hx
  simp only [Option.bind_eq_bind, Option.bind_some] at hx
  split at hx
  · exact (congrArg Prod.snd (Option.some.inj hx)).symm
  · exact absurd hx (by simp)

/-- `get_string` takes its reference back. -/
theorem World.Sound.getString_still (h : w.Sound t tb m) (hi : w.Idle) {key : Key} {tmp : Value}
    {p : CharPtr} (hx : w.getString t key tmp = some (p, w')) : w' = w := by
  unfold World.getString at hx
  rw [h.toOwns.searchTable h.wf] at hx
  simp only [Option.bind_eq_bind, Option.bind_some] at hx
  split at hx
  · obtain ⟨⟨slot, w₁⟩, hgrab, hx⟩ := Option.bind_eq_some_iff.mp hx
    have hgrab' := hgrab
    unfold World.grabString at hgrab'
    obtain ⟨⟨slot'⟩, hls, hgrab'⟩ := Option.bind_eq_some_iff.mp hgrab'
    obtain ⟨sl, hsl, -⟩ := Option.bind_eq_some_iff.mp hgrab'
    -- a slot that nobody holds is as it was after a grab and a release
    obtain ⟨str, hstr⟩ := hi.unshared slot' sl hsl
    obtain ⟨w₂, hgrab₂, -, hrel⟩ := World.grab_release hls hsl (by rw [hstr]; rfl)
    rw [hgrab] at hgrab₂
    cases hgrab₂
    have hx : (w₁.releaseString slot).bind (fun w => some (CharPtr.buf slot, w)) = some (p, w') := hx
    rw [hrel, Option.bind_some] at hx
    exact (congrArg Prod.snd (Option.some.inj hx)).symm
  · split at hx
    · exact (congrArg Prod.snd (Option.some.inj hx)).symm
    · exact absurd hx (by simp)

/-- Nothing can be read of a table that is not there. -/
theorem World.searchTable_none (ht : w.tables t = none) (key : Key) (tmp : Value) :
    w.searchTable t key tmp = none := by
  unfold World.searchTable World.searchMap World.searchMapLoop World.grabMap
  rw [ht]
  rfl

theorem World.enumerated_none (ht : w.tables t = none) : w.enumerated t = none := by
  unfold World.enumerated World.size World.grabMap
  rw [ht]
  rfl

theorem World.still_of_none (ht : w.tables t = none) (tmp : Value) : w.Still tmp t := by
  -- no getter finds a table
  have hplain : ∀ key type, w.getPlain t key tmp type = none := by
    intro key type
    unfold World.getPlain
    rw [World.searchTable_none ht]
    rfl
  have hstring : ∀ key, w.getString t key tmp = none := by
    intro key
    unfold World.getString
    rw [World.searchTable_none ht]
    rfl
  refine ⟨?_, ?_, ?_⟩
  · intro keys w' h
    rw [World.enumerated_none ht] at h
    exact absurd h (by simp)
  · intro r u w' h
    obtain ⟨key, -, h⟩ := Option.bind_eq_some_iff.mp h
    have h : w.getPlain t key tmp .ud = some (u, w') := h
    rw [hplain] at h
    exact absurd h (by simp)
  · intro r w' text h
    unfold World.valueText at h
    cases hty : r.type <;> rw [hty] at h
    · exact (congrArg Prod.fst (Option.some.inj h)).symm
    · obtain ⟨key, -, h⟩ := Option.bind_eq_some_iff.mp h
      obtain ⟨p, hget, -⟩ := Option.bind_eq_some_iff.mp h
      have hget : w.getPlain t key tmp .number = some p := hget
      rw [hplain] at hget
      exact absurd hget (by simp)
    · obtain ⟨key, -, h⟩ := Option.bind_eq_some_iff.mp h
      obtain ⟨p, hget, -⟩ := Option.bind_eq_some_iff.mp h
      unfold World.getBoolean at hget
      rw [hplain] at hget
      exact absurd hget (by simp)
    · exact absurd h (by simp)
    · obtain ⟨key, -, h⟩ := Option.bind_eq_some_iff.mp h
      obtain ⟨p, hget, -⟩ := Option.bind_eq_some_iff.mp h
      rw [hstring] at hget
      exact absurd hget (by simp)

/-- Enumerating leaves the world. -/
theorem World.Owns.enumerated_still (h : w.Owns t tb m) (hm : m.Wf) {keys : List TableKey}
    {w' : World} (hx : w.enumerated t = some (keys, w')) : w' = w := by
  obtain ⟨⟨size, w₁⟩, hsize, hrest⟩ := Option.bind_eq_some_iff.mp hx
  obtain ⟨⟨keys', w₂⟩, hkeys, hrest⟩ := Option.bind_eq_some_iff.mp hrest
  obtain ⟨u, -, hlast⟩ := Option.bind_eq_some_iff.mp hrest
  have hw : w₂ = w' := congrArg Prod.snd (Option.some.inj hlast)
  obtain ⟨-, rfl, -⟩ := h.of_size hsize
  rw [← hw]
  exact (h.of_keys hm hkeys).2

/-- Reading a table at rest. -/
theorem World.Sound.still (h : w.Sound t tb m) (hi : w.Idle) (tmp : Value) : w.Still tmp t := by
  refine ⟨?_, ?_, ?_⟩
  · intro keys w' hx
    exact h.toOwns.enumerated_still h.wf hx
  · intro r u w' hx
    obtain ⟨key, -, hx⟩ := Option.bind_eq_some_iff.mp hx
    exact h.toOwns.getPlain_still h.wf hx
  · intro r w' text hx
    unfold World.valueText at hx
    cases hty : r.type <;> rw [hty] at hx
    · -- nothing is read for a nil
      exact (congrArg Prod.fst (Option.some.inj hx)).symm
    · obtain ⟨key, -, hx⟩ := Option.bind_eq_some_iff.mp hx
      obtain ⟨⟨d, w₁⟩, hget, hx⟩ := Option.bind_eq_some_iff.mp hx
      -- a getter of a number or a boolean leaves the world
      rw [← h.toOwns.getPlain_still h.wf hget]
      exact (congrArg Prod.fst (Option.some.inj hx)).symm
    · obtain ⟨key, -, hx⟩ := Option.bind_eq_some_iff.mp hx
      obtain ⟨⟨b, w₁⟩, hget, hx⟩ := Option.bind_eq_some_iff.mp hx
      obtain ⟨⟨v, w₂⟩, hget, hb⟩ := Option.bind_eq_some_iff.mp hget
      have hw : w₂ = w₁ := congrArg Prod.snd (Option.some.inj hb)
      rw [← h.toOwns.getPlain_still h.wf hget, hw]
      exact (congrArg Prod.fst (Option.some.inj hx)).symm
    · exact absurd hx (by simp)
    · obtain ⟨key, -, hx⟩ := Option.bind_eq_some_iff.mp hx
      obtain ⟨⟨p, w₁⟩, hget, hx⟩ := Option.bind_eq_some_iff.mp hx
      obtain ⟨buf, -, hx⟩ := Option.bind_eq_some_iff.mp hx
      obtain ⟨str, -, hx⟩ := Option.bind_eq_some_iff.mp hx
      -- and so does that of a string, when the slots are at rest
      rw [← h.getString_still hi hget]
      exact (congrArg Prod.fst (Option.some.inj hx)).symm

/-- In a collection nothing changes by reading. -/
theorem NestState.Collected.still {s : NestState} (h : s.Collected) (tmp : Value) (t : Addr) :
    s.w.Still tmp t := by
  by_cases ht : t ∈ s.made
  · obtain ⟨tb, m, hs⟩ := h.sound ht
    exact hs.still h.idle tmp
  · have hnone : s.w.tables t = none := by
      cases hx : s.w.tables t with
      | none => rfl
      | some tb => exact absurd (h.known t (by rw [hx]; rfl)) ht
    exact World.still_of_none hnone tmp

/-! ## §4. The serializer in a world that stays. -/

/-- The call of `_do_serialize` on `t` calls itself on `u`: `get_ud` gives `u`
for an `LT_UD` key that is enumerated. -/
def World.Follows (w : World) (tmp : Value) (t u : Addr) : Prop :=
  ∃ keys w₁ r w₂, w.enumerated t = some (keys, w₁) ∧ r ∈ keys ∧ r.type = .ud
    ∧ w.subTable t r tmp = some (u, w₂)

variable {tmp : Value}

/-- A record leaves the world as it is when nested tables do. -/
theorem World.recordPieces_same (hstill : w.Still tmp t) {r : TableKey}
    {sub : Addr → World × List Bytes → Result (World × List Bytes)}
    (hsub : ∀ u ps y, sub u (w, ps) = .ok y → y.1 = w) {ps : List Bytes} {y : World × List Bytes}
    (hx : World.recordPieces tmp sub t (w, ps) r = .ok y) : y.1 = w := by
  unfold World.recordPieces at hx
  obtain ⟨head, -, hx⟩ := Result.bind_eq_ok.mp hx
  by_cases hr : r.type = .ud
  · rw [if_pos hr] at hx
    obtain ⟨⟨u, w₁⟩, hp, hx⟩ := Result.bind_eq_ok.mp hx
    obtain ⟨z, hz, hx⟩ := Result.bind_eq_ok.mp hx
    have hw : w₁ = w := hstill.subTable r u w₁ (Result.ofOption_eq_ok.mp hp)
    rw [hw] at hz
    rw [← Result.ok.inj hx]
    exact hsub u _ z hz
  · rw [if_neg hr] at hx
    obtain ⟨⟨w₁, text⟩, hp, hx⟩ := Result.bind_eq_ok.mp hx
    obtain ⟨text', -, hx⟩ := Result.bind_eq_ok.mp hx
    rw [← Result.ok.inj hx]
    exact hstill.valueText r w₁ text (Result.ofOption_eq_ok.mp hp)

theorem World.pieces_same (hstill : ∀ t, w.Still tmp t) (fuel : Nat) :
    ∀ (t : Addr) (ps : List Bytes) (y : World × List Bytes),
      World.pieces tmp fuel t (w, ps) = .ok y → y.1 = w := by
  induction fuel with
  | zero => intro t ps y hx; cases hx
  | succ fuel ih =>
      intro t ps y hx
      unfold World.pieces at hx
      obtain ⟨⟨keys, w₁⟩, he, hx⟩ := Result.bind_eq_ok.mp hx
      obtain ⟨z, hf, hx⟩ := Result.bind_eq_ok.mp hx
      have hw : w₁ = w := (hstill t).enumerated keys w₁ (Result.ofOption_eq_ok.mp he)
      rw [← Result.ok.inj hx]
      show z.1 = w
      -- every record leaves the world as it is
      refine Result.fold_inv (I := fun z : World × List Bytes => z.1 = w) ?_ hw hf
      intro a r _ b ha hb
      obtain ⟨wa, qs⟩ := a
      have ha : wa = w := ha
      subst ha
      exact World.recordPieces_same (hstill t) ih hb

/-- A call ends when the calls that it makes do. -/
theorem World.pieces_ends_succ (hstill : ∀ t, w.Still tmp t) {fuel : Nat}
    (hsub : ∀ u, w.Follows tmp t u → ∀ ps, (World.pieces tmp fuel u (w, ps)).Ends) (ps : List Bytes) :
    (World.pieces tmp (fuel + 1) t (w, ps)).Ends := by
  unfold World.pieces
  refine (Result.ends_ofOption _).bind ?_
  intro p hp
  obtain ⟨keys, w₁⟩ := p
  have he : w.enumerated t = some (keys, w₁) := Result.ofOption_eq_ok.mp hp
  have hw : w₁ = w := (hstill t).enumerated keys w₁ he
  subst hw
  refine Result.Ends.bind ?_ (fun y _ => Result.ends_ok _)
  refine Result.ends_fold (I := fun z : World × List Bytes => z.1 = w₁) ?_ ?_ rfl
  · -- one record: a nested table is one that `t` follows
    intro x r hr hx
    obtain ⟨wx, qs⟩ := x
    have hx : wx = w₁ := hx
    subst hx
    unfold World.recordPieces
    refine (Result.ends_ofOption _).bind ?_
    intro head _
    by_cases hud : r.type = .ud
    · rw [if_pos hud]
      refine (Result.ends_ofOption _).bind ?_
      intro q hq
      obtain ⟨u, w₂⟩ := q
      have hsubt : wx.subTable t r tmp = some (u, w₂) := Result.ofOption_eq_ok.mp hq
      have hw₂ : w₂ = wx := (hstill t).subTable r u w₂ hsubt
      subst hw₂
      exact (hsub u ⟨keys, w₂, r, w₂, he, hr, hud, hsubt⟩ _).bind (fun y _ => Result.ends_ok _)
    · rw [if_neg hud]
      refine (Result.ends_ofOption _).bind (fun q _ => ?_)
      exact (Result.ends_ofOption _).bind (fun y _ => Result.ends_ok _)
  · intro x r _ y hx hy
    obtain ⟨wx, qs⟩ := x
    have hx : wx = w₁ := hx
    subst hx
    exact World.recordPieces_same (hstill t) (World.pieces_same hstill fuel) hy

end LightTable
