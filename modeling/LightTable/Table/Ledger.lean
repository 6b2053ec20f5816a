/-
  LightTable.Table.Ledger
  ───────────────────────
  Where every block of memory is while setters run.

  An address below the next free one is in at most one place: it is held for
  the current map, it is a string slot, or it is in the log of what was freed
  (`World.Ledger`).  So nothing that the map holds has been freed, and nothing
  is freed twice.  A doubling moves all blocks of the old map to the log; every
  other call leaves them where they are (`World.Sound.set_ledger`).
-/
import LightTable.Table.Effects

namespace LightTable

variable {w w₀ w' : World} {t : Addr} {tb : Table} {m m' : LMap} {c : SetCall}
  {held held' : List Addr}

/-! ## §1. The ledger. -/

/-- Whether `a` is a string slot. -/
def World.slotAt (w : World) (a : Addr) : Nat := if (w.slots a).isSome then 1 else 0

/-- Every address is in at most one place, and in none before it is handed
out. -/
def World.Ledger (w : World) (held : List Addr) : Prop :=
  ∀ a, w.freed.count a + held.count a + w.slotAt a ≤ handedOut 0 w.brk a

theorem World.empty_ledger : World.empty.Ledger [] := by
  intro a
  exact Nat.zero_le _

theorem handedOut_le_one (b b' a : Nat) : handedOut b b' a ≤ 1 := by
  unfold handedOut
  split <;> omega

theorem World.Ledger.lt (h : w.Ledger held) {a : Addr} (ha : a ∈ held) : a < w.brk := by
  have hcount := h a
  have hpos := List.count_pos_iff.mpr ha
  unfold handedOut at hcount
  split at hcount
  next hlt => exact hlt.2
  next => omega

theorem World.Ledger.not_freed (h : w.Ledger held) {a : Addr} (ha : a ∈ held) : a ∉ w.freed := by
  intro hf
  have hcount := h a
  have hone := handedOut_le_one 0 w.brk a
  have hpos := List.count_pos_iff.mpr ha
  have hpos' := List.count_pos_iff.mpr hf
  omega

theorem World.slotAt_some {a : Addr} {sl : StringSlot} (h : w.slots a = some sl) :
    w.slotAt a = 1 := by
  unfold World.slotAt
  rw [h]
  rfl

theorem World.slotAt_none {a : Addr} (h : w.slots a = none) : w.slotAt a = 0 := by
  unfold World.slotAt
  rw [h]
  rfl

theorem World.slotAt_congr {a : Addr} (h : w'.slots a = w.slots a) : w'.slotAt a = w.slotAt a := by
  unfold World.slotAt
  rw [h]

/-- An address that was not handed out is no slot. -/
theorem World.Ledger.fresh (h : w.Ledger held) {a : Addr} (ha : w.brk ≤ a) : w.slotAt a = 0 := by
  have hcount := h a
  have hzero : handedOut 0 w.brk a = 0 := by
    unfold handedOut
    rw [if_neg (fun hx => Nat.not_lt.mpr ha hx.2)]
  omega

/-- Steps that account for what they hold and touch no slot keep the ledger. -/
theorem World.Ledger.accounts (h : w.Ledger held) (ha : w.Accounts held w' held')
    (hs : w'.slots = w.slots) : w'.Ledger held' := by
  intro a
  have hcount := h a
  have hacc := ha.count a
  have hadd := handedOut_add (Nat.zero_le w.brk) ha.brk a
  have hslot : w'.slotAt a = w.slotAt a := World.slotAt_congr (by rw [hs])
  omega

/-! ## §2. Strings. -/

/-- A slot is put at an address that was just handed out. -/
theorem World.Ledger.newSlot (h : w.Ledger held) {s : Addr} {sl : StringSlot} (hle : w.brk ≤ s)
    (hlt : s < w'.brk) (hslots : w'.slots = Function.update w.slots s (some sl))
    (hfreed : w'.freed = w.freed) : w'.Ledger held := by
  have hfresh := h.fresh hle
  intro a
  have hcount := h a
  have hadd := handedOut_add (Nat.zero_le w.brk) (Nat.le_of_lt (Nat.lt_of_le_of_lt hle hlt)) a
  rw [hfreed]
  by_cases ha : a = s
  · subst ha
    have hself : w'.slotAt a = 1 := World.slotAt_some (by rw [hslots]; exact Function.update_self ..)
    have hone : handedOut w.brk w'.brk a = 1 := by
      unfold handedOut
      rw [if_pos ⟨hle, hlt⟩]
    omega
  · have hother : w'.slotAt a = w.slotAt a :=
      World.slotAt_congr (by rw [hslots]; exact Function.update_of_ne ha ..)
    omega

/-- A slot is written, or given back. -/
theorem World.Ledger.putSlot (h : w.Ledger held) {s : Addr} {sl : StringSlot}
    (hs : w.slots s = some sl) {o : Option StringSlot} (hbrk : w'.brk = w.brk)
    (hslots : w'.slots = Function.update w.slots s o)
    (hfreed : w'.freed = (if o = none then [s] else []) ++ w.freed) : w'.Ledger held := by
  have hold := World.slotAt_some hs
  intro a
  have hcount := h a
  rw [hbrk]
  by_cases ha : a = s
  · subst ha
    have hself : w'.slots a = o := by
      rw [hslots]
      exact Function.update_self ..
    cases o with
    | none =>
      -- given back: the slot counts among what was freed
      have hzero := World.slotAt_none hself
      have hf : w'.freed.count a = w.freed.count a + 1 := by
        rw [hfreed]
        exact List.count_cons_self
      omega
    | some sl' =>
      -- written: the slot is still there
      have hone := World.slotAt_some hself
      have hf : w'.freed.count a = w.freed.count a := by
        rw [hfreed]
        rfl
      omega
  · have hother : w'.slotAt a = w.slotAt a :=
      World.slotAt_congr (by rw [hslots]; exact Function.update_of_ne ha ..)
    have hf : w'.freed.count a = w.freed.count a := by
      rw [hfreed]
      cases o with
      | none => exact List.count_cons_of_ne (Ne.symm ha)
      | some sl' => rfl
    omega

theorem World.Ledger.withString (h : w.Ledger held) (str : Bytes) :
    (w.withString str).Ledger held := by
  exact h.newSlot (Nat.le_succ w.brk) (Nat.lt_succ_self (w.brk + 1)) rfl rfl

/-- What swapping the slot of a live lstring does to the slots and the log:
the old slot is freed, or stays with a lower count. -/
theorem World.Tidy.updateString_slots (h : w.Tidy) {p : Word} {slot : Addr} {sl : StringSlot}
    (hls : w.lstrings p = some ⟨slot⟩) (hsl : w.slots slot = some sl) {str : Bytes}
    (hx : w.updateString p str = some w') :
    ∃ o : Option StringSlot, w'.brk = w.brk + 1
      ∧ w'.slots = Function.update
          (Function.update w.slots w.brk (some (LightTable.newString str))) slot o
      ∧ w'.freed = (if o = none then [slot] else []) ++ w.freed := by
  have hne : slot ≠ w.brk := Nat.ne_of_lt (h p slot hls)
  unfold World.updateString World.swapSlot World.newString World.decSlot World.freeSlot at hx
  simp only [World.putSlot, World.putLString, World.free, hls, hsl, Function.update_self,
    Function.update_of_ne hne, Option.bind_eq_bind, Option.bind_some, Option.pure_def] at hx
  split at hx
  · cases hx
    exact ⟨none, rfl, Function.update_idem .., rfl⟩
  · cases hx
    exact ⟨some _, rfl, rfl, rfl⟩

theorem World.Tidy.updateString_freed (h : w.Tidy) {p : Word} {str : Bytes}
    (hx : w.updateString p str = some w') : ∀ a ∈ w.freed, a ∈ w'.freed := by
  obtain ⟨slot, sl, hls, hsl⟩ := h.of_updateString hx
  obtain ⟨o, -, -, hfreed⟩ := h.updateString_slots hls hsl hx
  intro a ha
  rw [hfreed]
  exact List.mem_append.mpr (Or.inr ha)

theorem World.Ledger.updateString (h : w.Ledger held) (ht : w.Tidy) {p : Word} {str : Bytes}
    (hx : w.updateString p str = some w') : w'.Ledger held := by
  obtain ⟨slot, sl, hls, hsl⟩ := ht.of_updateString hx
  obtain ⟨o, hbrk, hslots, hfreed⟩ := ht.updateString_slots hls hsl hx
  have hne : slot ≠ w.brk := Nat.ne_of_lt (ht p slot hls)
  -- first the new slot, then what becomes of the old one
  have hnew : (w.newString str).2.Ledger held := by
    exact h.newSlot (Nat.le_refl w.brk) (Nat.lt_succ_self w.brk) rfl rfl
  have hold : (w.newString str).2.slots slot = some sl := by
    show Function.update w.slots w.brk _ slot = some sl
    rw [Function.update_of_ne hne]
    exact hsl
  exact hnew.putSlot hold hbrk hslots hfreed

/-- Reading a string through its lstring: the slot stays, and its count is what
it was, as an `int`. -/
theorem World.valueString_slots {v : Word} {bytes : Bytes} (hx : w.valueString v = some (bytes, w')) :
    ∃ slot sl sl', w.slots slot = some sl ∧ w'.brk = w.brk ∧ w'.tables = w.tables
      ∧ w'.lstrings = w.lstrings ∧ w'.slots = Function.update w.slots slot (some sl')
      ∧ w'.freed = w.freed
      ∧ sl'.buf = sl.buf ∧ sl'.sz = sl.sz ∧ asInt (sl'.ref + 1) = asInt (sl.ref + 1) := by
  unfold World.valueString at hx
  obtain ⟨⟨slot, w₁⟩, hgrab, hx⟩ := Option.bind_eq_some_iff.mp hx
  obtain ⟨bytes', -, hx⟩ := Option.bind_eq_some_iff.mp hx
  obtain ⟨w₂, hrel, hx⟩ := Option.bind_eq_some_iff.mp hx
  cases hx
  unfold World.grabString at hgrab
  obtain ⟨ls, -, hgrab⟩ := Option.bind_eq_some_iff.mp hgrab
  obtain ⟨sl, hsl, hgrab⟩ := Option.bind_eq_some_iff.mp hgrab
  by_cases href : 1 < asInt (sl.ref + 1)
  · rw [if_pos href] at hgrab
    cases hgrab
    -- the count that was raised above 1 does not come down to 0
    have hback : asInt (asInt (sl.ref + 1) - 1) ≠ 0
        ∧ asInt (asInt (asInt (sl.ref + 1) - 1) + 1) = asInt (sl.ref + 1) := by
      unfold asInt at href ⊢
      omega
    unfold World.releaseString World.decSlot World.freeSlot at hrel
    simp only [World.putSlot, World.free, Function.update_self, Option.bind_eq_bind,
      Option.bind_some, Option.pure_def] at hrel
    rw [if_pos hback.1] at hrel
    cases hrel
    exact ⟨_, sl, _, hsl, rfl, rfl, rfl, Function.update_idem .., rfl, rfl, rfl, hback.2⟩
  · rw [if_neg href] at hgrab
    exact absurd hgrab (by simp)

/-! ## §3. Setter calls. -/

/-- A fresh table takes two blocks, itself and its map object. -/
theorem World.newTable_accounts (hnew : w.newTable = some (t, w₀)) {tb : Table}
    (htb : w₀.tables t = some tb) :
    w.Accounts [] w₀ [t, tb.map] ∧ w₀.freed = w.freed ∧ w₀.slots = w.slots := by
  unfold World.newTable at hnew
  rw [nextPrime_default] at hnew
  simp only [Option.bind_eq_bind, Option.bind_some, Option.pure_def, Option.some.injEq,
    Prod.mk.injEq] at hnew
  obtain ⟨rfl, rfl⟩ := hnew
  rw [World.putTable_tables_self] at htb
  cases htb
  refine ⟨⟨Nat.le_add_right w.brk 2, ?_⟩, rfl, rfl⟩
  intro a
  show w.freed.count a + [w.brk, w.brk + 1].count a
    = w.freed.count a + 0 + handedOut w.brk (w.brk + 2) a
  rw [handedOut_two]
  rfl

theorem LMap.new_blocks : (LMap.new 29).blocks = [] := by decide

/-- A fresh table keeps the ledger. -/
theorem World.Ledger.newTable (h : w.Ledger []) (hw : w.Tidy) (hnew : w.newTable = some (t, w₀)) :
    ∃ tb, w₀.Sound t tb (LMap.new 29) ∧ w₀.Ledger (tb.map :: (LMap.new 29).blocks) := by
  obtain ⟨tb, hs⟩ := World.Sound.newTable hw hnew
  obtain ⟨hacc, -, hslots⟩ := World.newTable_accounts hnew hs.table
  refine ⟨tb, hs, ?_⟩
  rw [LMap.new_blocks]
  intro a
  have hcount := (h.accounts hacc hslots) a
  rw [List.count_cons] at hcount
  omega

/-- `_insert_table` keeps the ledger; what it frees is the old map, and only
when the map grows. -/
theorem World.Sound.insertTable_ledger (h : w.Sound t tb m) (hl : w.Ledger (tb.map :: m.blocks))
    {key : Key} {v : Value} (hv : v.type ≠ .nil) {type : LType}
    (hx : w.insertTable t key v = some (type, w')) :
    ∃ tb' m', w'.Sound t tb' m' ∧ w'.Ledger (tb'.map :: m'.blocks)
      ∧ (∀ a ∈ w.freed, a ∈ w'.freed)
      ∧ if maxHashDepth ≤ m.depth key then ∀ a ∈ m.blocks, a ∈ w'.freed
        else ∀ a ∈ m.blocks, a ∈ m'.blocks := by
  have hready := h.toOwns.of_insertTable h.wf hv hx
  obtain ⟨w₁, tb', m', heq, howns, hgrown, -, hframe, -, hacc, -, hfreed⟩ :=
    h.toOwns.insertTable h.wf key hv hready
  rw [hx] at heq
  simp only [Option.some.injEq, Prod.mk.injEq] at heq
  obtain ⟨rfl, rfl⟩ := heq
  have hwf := ((h.wf.inserted key w.brk hv).grown hgrown hready).1
  -- the blocks that were there are still blocks of the map before it grows
  have hkept : ∀ a ∈ m.blocks, a ∈ (m.inserted w.brk key v).blocks := by
    intro a ha
    obtain ⟨brk', -, hr⟩ := h.wf.insertValue_eq key w.brk v
    have hcount : (m.inserted w.brk key v).blocks.count a = m.blocks.count a + handedOut w.brk brk' a :=
      (h.wf.insertValue_blocks hr a).2
    have hpos := List.count_pos_iff.mpr ha
    apply List.count_pos_iff.mp
    omega
  refine ⟨tb', m', ⟨howns, hwf, h.tidy.frame hframe⟩, hl.accounts hacc hframe.slots, ?_, ?_⟩
  · intro a ha
    rw [hfreed]
    exact List.mem_append.mpr (Or.inr ha)
  · split
    next hd =>
      intro a ha
      rw [hfreed, if_pos hd]
      refine List.mem_append.mpr (Or.inl (List.mem_cons_of_mem _ ?_))
      apply List.count_pos_iff.mp
      rw [count_reverse_blocks]
      exact List.count_pos_iff.mpr (hkept a ha)
    next hd =>
      rcases hgrown with ⟨-, rfl⟩ | ⟨hd', -⟩
      · exact hkept
      · exact absurd hd' hd

/-- A setter call keeps the ledger; what it frees of the map is everything when
the map grows, and nothing otherwise. -/
theorem World.Sound.set_ledger (h : w.Sound t tb m) (hl : w.Ledger (tb.map :: m.blocks)) {r : Int}
    (hx : w.set t c = some (r, w')) :
    ∃ tb' m', w'.Sound t tb' m' ∧ w'.Ledger (tb'.map :: m'.blocks)
      ∧ (∀ a ∈ w.freed, a ∈ w'.freed)
      ∧ if m.Expands c then ∀ a ∈ m.blocks, a ∈ w'.freed else ∀ a ∈ m.blocks, a ∈ m'.blocks := by
  cases h.set_case hx with
  | refused hc n hn hne hw =>
    subst hw
    refine ⟨tb, m, h, hl, fun a ha => ha, ?_⟩
    rw [if_neg (fun hexp => h.wf.not_inserts hc hn hexp.1)]
    exact fun a ha => ha
  | swapped str harg n hn hty hup =>
    have hc : c.arg.type = .string := by rw [harg]; rfl
    refine ⟨tb, m, (h.updateString hup).1, hl.updateString h.tidy hup,
      h.tidy.updateString_freed hup, ?_⟩
    rw [if_neg (fun hexp => h.wf.not_inserts hc hn hexp.1)]
    exact fun a ha => ha
  | insertedString str harg hn type hins =>
    -- the slot of the string is made first, then its node
    have hi : m.Inserts c := fun _ => LMap.typeAt_absent hn
    obtain ⟨tb', m', hs', hl', hfreed, hblocks⟩ := (h.withString str).insertTable_ledger
      (hl.withString str) (show LType.string ≠ .nil by decide) hins
    refine ⟨tb', m', hs', hl', hfreed, ?_⟩
    rwa [if_congr hi.expands_iff rfl rfl]
  | insertedPlain hty type hins =>
    have hi : m.Inserts c := fun hs => absurd hs hty
    obtain ⟨tb', m', hs', hl', hfreed, hblocks⟩ :=
      h.insertTable_ledger hl c.arg.type_ne_nil hins
    refine ⟨tb', m', hs', hl', hfreed, ?_⟩
    rwa [if_congr hi.expands_iff rfl rfl]

/-- Every table that setter calls reach keeps the ledger. -/
theorem World.Sound.setAll_ledger (h : w.Sound t tb m) (hl : w.Ledger (tb.map :: m.blocks))
    {calls : List SetCall} {rs : List Int} (hx : w.setAll t calls = some (rs, w')) :
    ∃ tb' m', w'.Sound t tb' m' ∧ w'.Ledger (tb'.map :: m'.blocks) := by
  refine Run.run_inv (fun w c => World.set w t c)
    (I := fun w => ∃ tb m, World.Sound w t tb m ∧ w.Ledger (tb.map :: m.blocks)) ?_
    ⟨tb, m, h, hl⟩ hx
  intro w c r w' ⟨tb, m, hs, hl⟩ hset
  obtain ⟨tb', m', hs', hl', -⟩ := hs.set_ledger hl hset
  exact ⟨tb', m', hs', hl'⟩

end LightTable
