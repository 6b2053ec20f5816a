/-
  LightTable.Table.Reach
  ──────────────────────
  What holds of a table after any setter calls, whatever their keys and types.

  `World.Sound` is weaker than `World.Rep`: keys may alias and unions may hold
  the bits of another type.  What is left is that every map a table owns is
  well formed and that every lstring names a slot that was allocated.
-/
import LightTable.Table.Refine

namespace LightTable

open ChainedHash

variable {w : World} {t : Addr} {tb : Table} {m : LMap}

/-! ## §1. Sound worlds. -/

/-- Every lstring names a slot that was allocated. -/
def World.Tidy (w : World) : Prop := ∀ a slot, w.lstrings a = some ⟨slot⟩ → slot < w.brk

theorem World.empty_tidy : World.empty.Tidy :=
  fun a slot ha => absurd ha (by simp [World.empty])

/-- The table at `t` is at rest and its current map `m` is well formed. -/
structure World.Sound (w : World) (t : Addr) (tb : Table) (m : LMap) : Prop
    extends w.Owns t tb m where
  wf : m.Wf
  tidy : w.Tidy

theorem World.Tidy.frame {w' : World} (h : w.Tidy) (hf : World.Frame t w w') : w'.Tidy := by
  intro a slot ha
  rw [hf.lstrings] at ha
  exact Nat.lt_of_lt_of_le (h a slot ha) hf.brk

theorem World.Sound.newTable {w₀ : World} (hw : w.Tidy) (h : w.newTable = some (t, w₀)) :
    ∃ tb, w₀.Sound t tb (LMap.new 29) := by
  obtain ⟨-, hbrk, hls, -, -, -, tb, howns, -⟩ := World.of_newTable h
  refine ⟨tb, howns, LMap.new_inv.toWf, ?_⟩
  intro a slot ha
  rw [hls] at ha
  have hlt := hw a slot ha
  rw [hbrk]
  exact Nat.lt_succ_of_lt (Nat.lt_succ_of_lt hlt)

/-! ## §2. Insert. -/

/-- `_insert_table` keeps a table sound. -/
theorem World.Sound.insertTable (h : w.Sound t tb m) {key : Key} {v : Value} (hv : v.type ≠ .nil)
    {type : LType} {w' : World} (hx : w.insertTable t key v = some (type, w')) :
    type = m.typeAt key ∧ World.Frame t w w' ∧ ∃ tb' m', w'.Sound t tb' m'
      ∧ (m.inserted w.brk key v).Grown (maxHashDepth ≤ m.depth key) m'
      ∧ (maxHashDepth ≤ m.depth key → (m.inserted w.brk key v).Ready) := by
  have hready := h.toOwns.of_insertTable h.wf hv hx
  obtain ⟨w₁, tb', m', heq, howns, hgrown, -, hframe, -⟩ :=
    h.toOwns.insertTable h.wf key hv hready
  rw [hx] at heq
  simp only [Option.some.injEq, Prod.mk.injEq] at heq
  obtain ⟨rfl, rfl⟩ := heq
  refine ⟨rfl, hframe, tb', m', ⟨howns, ?_, h.tidy.frame hframe⟩, hgrown, hready⟩
  exact ((h.wf.inserted key w.brk hv).grown hgrown hready).1

/-! ## §3. Strings. -/

/-- The world after `set_string` built its lstring and slot. -/
def World.withString (w : World) (str : Bytes) : World :=
  (({ w with brk := w.brk + 1 } : World).newString str).2.putLString w.brk { slot := w.brk + 1 }

theorem World.Sound.withString (h : w.Sound t tb m) (str : Bytes) :
    (w.withString str).Sound t tb m := by
  have hbrk : (w.withString str).brk = w.brk + 2 := rfl
  refine ⟨h.toOwns.congr rfl (by rw [hbrk]; exact Nat.le_add_right _ 2), h.wf, ?_⟩
  intro a slot ha
  rw [hbrk]
  by_cases hab : a = w.brk
  · -- the new lstring names the new slot
    subst hab
    have hself : (w.withString str).lstrings w.brk = some ⟨w.brk + 1⟩ := Function.update_self ..
    rw [hself] at ha
    cases ha
    exact Nat.lt_succ_self _
  · have hother : (w.withString str).lstrings a = w.lstrings a := Function.update_of_ne hab ..
    rw [hother] at ha
    exact Nat.lt_of_lt_of_le (h.tidy a slot ha) (Nat.le_add_right _ 2)

theorem World.insertString_eq (w : World) (t : Addr) (key : Key) (tmp : Value) (str : Bytes) :
    w.insertString t key tmp str
      = ((w.withString str).insertTable t key { tmp with type := .string, v := w.brk }).map
          (fun r => ((0 : Int), r.2)) := by
  unfold World.insertString
  show ((w.withString str).insertTable t key { tmp with type := .string, v := w.brk }).bind _ = _
  cases (w.withString str).insertTable t key { tmp with type := .string, v := w.brk } <;> rfl

/-- An lstring whose slot is there. -/
def World.Live (w : World) (p : Word) : Prop :=
  ∃ slot sl, w.lstrings p = some ⟨slot⟩ ∧ w.slots slot = some sl

/-- `_update_string` returns on a live lstring, which then names a new slot;
the tables stay. -/
theorem World.Tidy.updateString (h : w.Tidy) {p : Word} (hp : w.Live p) (str : Bytes) :
    ∃ w', w.updateString p str = some w' ∧ w'.tables = w.tables ∧ w'.brk = w.brk + 1
      ∧ w'.Tidy ∧ w'.lstrings p = some ⟨w.brk⟩
      ∧ w'.slots w.brk = some (LightTable.newString str)
      ∧ (∀ a, a ≠ p → w'.lstrings a = w.lstrings a)
      ∧ (∀ s, s ≠ w.brk → w.lstrings p ≠ some ⟨s⟩ → w'.slots s = w.slots s)
      ∧ ∀ a, a ∈ w'.freed → a ∈ w.freed ∨ w.lstrings p = some ⟨a⟩ := by
  obtain ⟨slot, sl, hls, hsl⟩ := hp
  have hlt := h p slot hls
  have hne : slot ≠ w.brk := Nat.ne_of_lt hlt
  have htidy : ∀ w' : World, w'.brk = w.brk + 1 →
      w'.lstrings = Function.update w.lstrings p (some ⟨w.brk⟩) → w'.Tidy := by
    intro w' hb hl a s ha
    rw [hl, Function.update_apply] at ha
    rw [hb]
    by_cases hap : a = p
    · rw [if_pos hap] at ha
      cases ha
      exact Nat.lt_succ_self _
    · rw [if_neg hap] at ha
      exact Nat.lt_succ_of_lt (h a s ha)
  unfold World.updateString World.swapSlot World.newString World.decSlot World.freeSlot
  simp only [World.putSlot, World.putLString, World.free, hls, hsl, Function.update_self,
    Function.update_of_ne hne, Option.bind_eq_bind, Option.bind_some, Option.pure_def]
  -- the old slot is freed or only counted down; the new one is another
  split
  · refine ⟨_, rfl, rfl, rfl, htidy _ rfl rfl, Function.update_self .., ?_,
      fun a ha => Function.update_of_ne ha .., ?_, ?_⟩
    · show Function.update (Function.update (Function.update w.slots w.brk _) slot _) slot _ w.brk
        = _
      rw [Function.update_of_ne hne.symm, Function.update_of_ne hne.symm, Function.update_self]
    · intro s hs hps
      have hss : s ≠ slot := fun heq => hps (by rw [heq])
      show Function.update (Function.update (Function.update w.slots w.brk _) slot _) slot _ s = _
      rw [Function.update_of_ne hss, Function.update_of_ne hss, Function.update_of_ne hs]
    · intro a ha
      rcases List.mem_cons.mp ha with rfl | ha
      · exact Or.inr rfl
      · exact Or.inl ha
  · refine ⟨_, rfl, rfl, rfl, htidy _ rfl rfl, Function.update_self .., ?_,
      fun a ha => Function.update_of_ne ha .., ?_, fun a ha => Or.inl ha⟩
    · show Function.update (Function.update w.slots w.brk _) slot _ w.brk = _
      rw [Function.update_of_ne hne.symm, Function.update_self]
    · intro s hs hps
      have hss : s ≠ slot := fun heq => hps (by rw [heq])
      show Function.update (Function.update w.slots w.brk _) slot _ s = _
      rw [Function.update_of_ne hss, Function.update_of_ne hs]

theorem World.Tidy.of_updateString (h : w.Tidy) {p : Word} {str : Bytes} {w' : World}
    (hx : w.updateString p str = some w') : w.Live p := by
  unfold World.updateString World.swapSlot World.newString at hx
  obtain ⟨⟨⟨old, ref⟩, w₁⟩, hsw, -⟩ := Option.bind_eq_some_iff.mp hx
  obtain ⟨⟨slot⟩, hls, hsw⟩ := Option.bind_eq_some_iff.mp hsw
  obtain ⟨⟨ref', w₂⟩, hdec, -⟩ := Option.bind_eq_some_iff.mp hsw
  unfold World.decSlot at hdec
  obtain ⟨sl, hsl, -⟩ := Option.bind_eq_some_iff.mp hdec
  have hls : w.lstrings p = some ⟨slot⟩ := hls
  have hne : slot ≠ w.brk := Nat.ne_of_lt (h p slot hls)
  have hsl : Function.update w.slots w.brk (some (LightTable.newString str)) slot = some sl := hsl
  rw [Function.update_of_ne hne] at hsl
  exact ⟨slot, sl, hls, hsl⟩

/-! ## §4. Any setter call. -/

/-- `set_string` on an absent key inserts a new lstring. -/
theorem World.Owns.set_inserts (h : w.Owns t tb m) (hm : m.Wf) {c : SetCall} {str : Bytes}
    (hc : c.arg = .string str) (hn : m.find c.key = none) :
    w.set t c = ((w.withString str).insertTable t c.key { c.tmp with type := .string, v := w.brk }).map
      (fun r => ((0 : Int), r.2)) := by
  rw [h.set_absent hm hc hn, World.insertString_eq]

/-- Swapping the slot of an lstring leaves the tables. -/
theorem World.Sound.updateString (h : w.Sound t tb m) {p : Word} {str : Bytes} {w' : World}
    (hup : w.updateString p str = some w') :
    w'.Sound t tb m ∧ w'.lstrings p = some ⟨w.brk⟩
      ∧ w'.slots w.brk = some (LightTable.newString str)
      ∧ (∀ a, a ≠ p → w'.lstrings a = w.lstrings a)
      ∧ ∀ s, s ≠ w.brk → w.lstrings p ≠ some ⟨s⟩ → w'.slots s = w.slots s := by
  obtain ⟨w₂, heq, htables, hbrk, htidy, hls, hsl, hother, hslots, -⟩ :=
    h.tidy.updateString (h.tidy.of_updateString hup) str
  rw [hup, Option.some.injEq] at heq
  subst heq
  have howns := h.toOwns.congr htables (by rw [hbrk]; exact Nat.le_succ _)
  exact ⟨⟨howns, h.wf, htidy⟩, hls, hsl, hother, hslots⟩

/-- A setter call that returns leaves a sound table. -/
theorem World.Sound.set (h : w.Sound t tb m) {c : SetCall} {r : Int} {w' : World}
    (hx : w.set t c = some (r, w')) : ∃ tb' m', w'.Sound t tb' m' := by
  by_cases hc : c.arg.type = .string
  · obtain ⟨str, hstr⟩ := Arg.eq_string hc
    cases hf : m.find c.key with
    | none =>
      rw [h.toOwns.set_inserts h.wf hstr hf] at hx
      obtain ⟨⟨type, w₁⟩, hins, hx⟩ := Option.map_eq_some_iff.mp hx
      cases hx
      obtain ⟨-, -, tb', m', hsound, -⟩ :=
        (h.withString str).insertTable (show LType.string ≠ .nil by decide) hins
      exact ⟨tb', m', hsound⟩
    | some n =>
      by_cases hty : n.v.type = .string
      · rw [h.toOwns.set_swaps h.wf hstr hf hty] at hx
        obtain ⟨w₁, hup, hx⟩ := Option.map_eq_some_iff.mp hx
        cases hx
        exact ⟨tb, m, (h.updateString hup).1⟩
      · rw [h.toOwns.set_refuses h.wf hstr hf hty] at hx
        cases hx
        exact ⟨tb, m, h⟩
  · rw [World.set_of_plain hc] at hx
    obtain ⟨⟨type, w₁⟩, hins, hx⟩ := Option.bind_eq_some_iff.mp hx
    cases hx
    obtain ⟨-, -, tb', m', hsound, -⟩ := h.insertTable c.arg.type_ne_nil hins
    exact ⟨tb', m', hsound⟩

/-- Every table reached by setter calls is sound. -/
theorem World.Sound.setAll (h : w.Sound t tb m) {calls : List SetCall} {rs : List Int}
    {w' : World} (hx : w.setAll t calls = some (rs, w')) : ∃ tb' m', w'.Sound t tb' m' := by
  refine Run.run_inv (fun w c => World.set w t c) (I := fun w => ∃ tb m, World.Sound w t tb m)
    ?_ ⟨tb, m, h⟩ hx
  intro w c r w' ⟨tb, m, hs⟩ hset
  exact hs.set hset

end LightTable
