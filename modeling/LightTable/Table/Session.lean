/-
  LightTable.Table.Session
  ────────────────────────
  A client with any number of tables: it creates tables, grabs and releases
  them, and calls the setters, in any order.

  A client keeps to the rules of reference counting: it uses tables that are
  there, releases only what it holds, and gives a reference away when it stores
  a table.  Then nothing it does can go wrong (`session_goes_on`), a table is
  there as long as somebody refers to it and no longer (`session_counts`), the
  tables are finite maps that do not see each other's calls (`session_reads`),
  and every block is freed exactly once, all of them when the last references
  are gone (`session_frees`).
-/
import LightTable.Table.Sharing
import LightTable.Table.Collection

namespace LightTable

open Finset Owners

/-! ## §1. Runs. -/

/-- The memory, the tables created so far, and the references that the client
holds. -/
structure SessionState where
  w : World
  made : List Addr
  held : List Addr

/-- A step: `new table`, `grab`, `_release`, `delete`, or a setter of the table
`t`. -/
inductive SessionStep where
  | create
  | grab (t : Addr)
  | release (t : Addr)
  | delete (t : Addr)
  | set (t : Addr) (c : SetCall)

/-- What the client holds after a setter has stored its pointer. -/
def handOver (held : List Addr) (c : SetCall) : List Addr :=
  match c.arg.pointer with
  | some u => held.erase u
  | none => held

/-- One step; a setter gives its return code. -/
def SessionState.step (s : SessionState) : SessionStep → Option (Int × SessionState)
  | .create => do
      let (t, w) ← s.w.newTable
      return (0, { w := w, made := t :: s.made, held := t :: s.held })
  | .grab t => do
      let w ← s.w.grab t
      return (0, { s with w := w, held := t :: s.held })
  | .release t => do
      let w ← s.w.release t
      return (0, { s with w := w, held := s.held.erase t })
  | .delete t => do
      let w ← s.w.delete t
      return (0, { s with w := w, held := s.held.erase t })
  | .set t c => do
      let (r, w) ← s.w.set t c
      return (r, { s with w := w, held := if r = 0 then handOver s.held c else s.held })

/-- Nothing is allocated. -/
def SessionState.start : SessionState := { w := World.empty, made := [], held := [] }

/-- The tables that are there. -/
def SessionState.live (s : SessionState) : Finset Addr :=
  s.made.toFinset.filter (fun t => (s.w.tables t).isSome)

/-- The tables that the table `t` stores, place by place. -/
def World.stores (w : World) (t : Addr) : List Addr :=
  ((w.current t).map LMap.pointers).getD []

/-- The references to a table: those of the client, and one for each place in
a live table where it is stored. -/
def SessionState.refs (s : SessionState) (t : Addr) : Nat := Owners.refs s.w.stores s.live s.held t

/-- The client keeps to the rules: it uses tables that are there, releases and
stores what it holds, deletes what nobody else refers to, stores tables under
new keys only, and meets no value of another type, no `int` overflow of a
counter and none of a bucket count. -/
def SessionState.Proper (s : SessionState) : SessionStep → Prop
  | .create => True
  | .grab t => (s.w.tables t).isSome ∧ s.refs t + 1 < 2147483648
  | .release t => t ∈ s.held
  | .delete t => t ∈ s.held ∧ s.refs t = 1
  | .set t c => ∃ m ∈ s.w.current t, c.key.Short
      ∧ (m.typeAt c.key = .nil ∨ m.typeAt c.key = c.arg.type)
      ∧ s.w.bucketsAsked t c < 2147483648
      ∧ ∀ u ∈ c.arg.pointer, m.typeAt c.key = .nil ∧ u ∈ s.held

instance SessionState.decidableProper (s : SessionState) : ∀ e : SessionStep, Decidable (s.Proper e)
  | .create => isTrue trivial
  | .grab _ => inferInstanceAs (Decidable (_ ∧ _))
  | .release _ => inferInstanceAs (Decidable (_ ∈ _))
  | .delete _ => inferInstanceAs (Decidable (_ ∧ _))
  | .set _ _ => inferInstanceAs (Decidable (∃ m ∈ _, _))

/-- The setter calls on the table `t`, in order. -/
def callsOn (t : Addr) (steps : List SessionStep) : List SetCall :=
  steps.filterMap (fun e => match e with
    | .set t' c => if t' = t then some c else none
    | _ => none)

/-! ## §2. What a table holds. -/

variable {w w' : World} {t u : Addr} {tb tb' : Table} {m m' : LMap} {s : Store}

/-- The blocks of a table. -/
def World.blocksOf (w : World) (t : Addr) : List Addr :=
  match w.tables t, w.current t with
  | some tb, some m => t :: tb.map :: w.nodeBlocks m.entries
  | _, _ => []

theorem World.Owns.stores (h : w.Owns t tb m) : w.stores t = m.pointers := by
  unfold World.stores
  rw [h.current]
  rfl

theorem World.Owns.blocksOf (h : w.Owns t tb m) :
    w.blocksOf t = t :: tb.map :: w.nodeBlocks m.entries := by
  unfold World.blocksOf
  rw [h.table, h.current]

theorem World.current_none (h : w.tables t = none) : w.current t = none := by
  unfold World.current
  rw [h]
  rfl

theorem World.stores_none (h : w.tables t = none) : w.stores t = [] := by
  unfold World.stores
  rw [World.current_none h]
  rfl

/-- A table whose object differs in the counter only, and whose strings are
where they were, represents the same store. -/
theorem World.Rep.move (h : w.Rep t s tb m) {r : Int}
    (htable : w'.tables t = some { tb with ref := r }) (hbrk : w.brk ≤ w'.brk)
    (hstr : ∀ a ∈ w.nodeBlocks m.entries, w'.lstrings a = w.lstrings a ∧ w'.slots a = w.slots a) :
    w'.Rep t s { tb with ref := r } m := by
  -- a string of the table is behind a node
  have hview : ∀ key p, m.view key = some (.string, p) → ∃ slot, w.lstrings p = some ⟨slot⟩
      ∧ w'.lstrings p = w.lstrings p ∧ w'.slots slot = w.slots slot := by
    intro key p hv
    obtain ⟨str, slot, -, hls, hsl⟩ := h.of_view_string hv
    obtain ⟨n, hn, hnv⟩ := Option.map_eq_some_iff.mp hv
    simp only [Prod.mk.injEq] at hnv
    obtain ⟨hty, rfl⟩ := hnv
    have hmem := World.mem_valueBlocks hty hls
    have hnode := (LMap.find_mem hn).1
    exact ⟨slot, hls, (hstr _ (World.mem_nodeBlocks hnode (List.mem_append_right _ hmem.1))).1,
      (hstr _ (World.mem_nodeBlocks hnode (List.mem_append_right _ hmem.2))).2⟩
  have hback : ∀ key p slot, m.view key = some (.string, p) → w'.lstrings p = some ⟨slot⟩ →
      w.lstrings p = some ⟨slot⟩ := by
    intro key p slot hv hp
    obtain ⟨-, -, hsame, -⟩ := hview key p hv
    rwa [hsame] at hp
  refine ⟨⟨htable, h.map, h.ref, Nat.lt_of_lt_of_le h.below hbrk⟩, h.inv, ?_, h.absent, ?_, ?_⟩
  · intro key a ha
    obtain ⟨v, hv, hst⟩ := h.view_some ha
    refine ⟨_, hv, hst.congr ?_⟩
    intro slot hty hp
    have hvs : m.view key = some (.string, v) := by
      rw [hv]
      exact congrArg (fun x => some (x, v)) hty
    obtain ⟨slot', hls, hsame, hslot⟩ := hview key v hvs
    rw [hls] at hp
    cases hp
    exact ⟨hsame.trans hls, hslot⟩
  · intro key key' p p' slot slot' hv hv' hp hp'
    exact h.alone key key' p p' slot slot' hv hv' (hback key p slot hv hp) (hback key' p' slot' hv' hp')
  · intro key p slot hv hp
    have hlt := h.old key p slot hv (hback key p slot hv hp)
    exact ⟨Nat.lt_of_lt_of_le hlt.1 hbrk, Nat.lt_of_lt_of_le hlt.2 hbrk⟩

/-! ## §3. A setter on one of the tables. -/

/-- Maps of the same contents store the same tables. -/
theorem LMap.count_pointers (h : (m'.entries.map Node.content).Perm (m.entries.map Node.content))
    (x : Addr) : m'.pointers.count x = m.pointers.count x := by
  have hcontent : ∀ m : LMap, m.pointers
      = (m.entries.map Node.content).flatMap (fun p => p.2.pointers) := by
    intro m
    rw [List.flatMap_map]
    rfl
  rw [hcontent, hcontent]
  exact (h.flatMap_right _).count_eq x

/-- The tables stored after an insert; `hplain` says that no stored table is
overwritten. -/
theorem LMap.Sized.count_pointers_inserted (hm : m.Sized) {key : Key} {v : Value}
    (hplain : ∀ n, m.find key = some n → v.type ≠ .ud ∧
      ∀ n' ∈ m.entries, n'.storedKey = some key → n'.v.type ≠ .ud) (brk : Addr) (x : Addr) :
    (m.inserted brk key v).pointers.count x = v.pointers.count x + m.pointers.count x := by
  cases hf : m.find key with
  | none =>
    have hperm := ((hm.entries_link key (freshNode brk key v)).flatMap_right
      (fun n => n.v.pointers)).count_eq x
    rw [List.flatMap_cons, List.count_append] at hperm
    rw [LMap.inserted_absent hf]
    exact hperm
  | some n =>
    obtain ⟨hv, hkey⟩ := hplain n hf
    have hmap : (m.overwrite key v.v).entries.map (fun n => n.v.pointers)
        = m.entries.map (fun n => n.v.pointers) := by
      apply hm.map_overwrite_of
      intro n hn hk
      rw [Value.pointers_plain (hkey n hn hk)]
      exact Value.pointers_plain (show (n.setWord v.v).v.type ≠ .ud from hkey n hn hk)
    rw [LMap.inserted_found hf, Value.pointers_plain hv, List.count_nil, Nat.zero_add]
    unfold LMap.pointers
    rw [List.flatMap_def, List.flatMap_def, hmap]

/-- What a setter call that puts its value does, besides that: it leaves the
other tables and their strings, accounts for what its own table holds, and
stores the pointer of the call, if any. -/
structure World.Puts (w : World) (t : Addr) (tb : Table) (m : LMap) (c : SetCall) (w' : World)
    (tb' : Table) (m' : LMap) : Prop where
  ref : tb'.ref = tb.ref
  others : ∀ x, x ≠ t → w'.tables x = w.tables x
  strings : ∀ a, a < w.brk → a ∉ w.nodeBlocks m.entries →
    w'.lstrings a = w.lstrings a ∧ w'.slots a = w.slots a
  accounts : w.Accounts (tb.map :: w.nodeBlocks m.entries) w' (tb'.map :: w'.nodeBlocks m'.entries)
  pointers : ∀ x, m'.pointers.count x = c.arg.pointer.toList.count x + m.pointers.count x
  destroyed : w'.destroyed = w.destroyed
  tidy : w'.Tidy

theorem World.accounts_nodes (h : w.Accounts (tb.map :: (m.blocks ++ w.stringBlocks m)) w'
    (tb'.map :: (m'.blocks ++ w'.stringBlocks m'))) :
    w.Accounts (tb.map :: w.nodeBlocks m.entries) w' (tb'.map :: w'.nodeBlocks m'.entries) := by
  refine h.congr ?_ ?_
  · intro a
    rw [List.count_cons, List.count_cons, World.count_nodeBlocks]
  · intro a
    rw [List.count_cons, List.count_cons, World.count_nodeBlocks]

/-- An insert, into the table of a world with maybe one string more. -/
theorem World.Rep.insertTable_puts {w₁ : World} (h : w₁.Rep t s tb m) {key : Key} {v : Value}
    (hnil : v.type ≠ .nil) {type : LType} (hins : w₁.insertTable t key v = some (type, w'))
    {s' : Store} (h' : w'.Rep t s' tb' m')
    (hplain : ∀ n, m.find key = some n → v.type ≠ .ud ∧
      ∀ n' ∈ m.entries, n'.storedKey = some key → n'.v.type ≠ .ud) :
    tb'.ref = tb.ref ∧ ∀ x, m'.pointers.count x = v.pointers.count x + m.pointers.count x := by
  have hwf := h.inv.toWf
  have hready := h.toOwns.of_insertTable hwf hnil hins
  obtain ⟨w₂, tb₂, m₂, heq, howns, hgrown, -, -, href, -⟩ :=
    h.toOwns.insertTable hwf key hnil hready
  rw [hins, Option.some.injEq, Prod.mk.injEq] at heq
  obtain ⟨-, rfl⟩ := heq
  obtain ⟨rfl, rfl⟩ := howns.unique h'.toOwns
  refine ⟨href, ?_⟩
  intro x
  rw [LMap.count_pointers ((hwf.inserted key w₁.brk hnil).grown hgrown hready).2,
    hwf.toSized.count_pointers_inserted hplain]

/-- A key whose type the call may write: a table is stored under a new key
only. -/
def LMap.Admits (m : LMap) (c : SetCall) : Prop :=
  (m.typeAt c.key = .nil ∨ m.typeAt c.key = c.arg.type)
    ∧ (c.arg.type = .ud → m.typeAt c.key = .nil)

theorem LMap.Inv.admits_plain (hm : m.Inv) {c : SetCall} (hadm : m.Admits c) {n : Node}
    (hn : m.find c.key = some n) :
    c.arg.type ≠ .ud ∧ ∀ n' ∈ m.entries, n'.storedKey = some c.key → n'.v.type ≠ .ud := by
  have hty := LMap.typeAt_found hn
  have hnil : m.typeAt c.key ≠ .nil := by
    rw [hty]
    exact hm.type n (LMap.find_mem hn).1
  have hud : c.arg.type ≠ .ud := fun hud => hnil (hadm.2 hud)
  refine ⟨hud, ?_⟩
  intro n' hn' hk
  have hfind : m.find c.key = some n' := (hm.find_eq_some).mpr ⟨hn', hk⟩
  rw [← LMap.typeAt_found hfind, hadm.1.resolve_left hnil]
  exact hud

theorem World.Rep.accepts (h : w.Rep t s tb m) {c : SetCall} (hadm : m.Admits c) : s.Accepts c := by
  intro a ha
  have hty := h.typeAt c.key
  rw [ha] at hty
  have hty : m.typeAt c.key = a.type := hty
  rcases hadm.1 with hnil | hsame
  · rw [hnil] at hty
    exact absurd hty.symm a.type_ne_nil
  · rw [← hty, hsame]

/-- The pointer of a call is that of the value it writes. -/
theorem Arg.pointers_written {a : Arg} {tmp v : Value} (h : a.Written tmp v) :
    v.pointers = a.pointer.toList := by
  have hty := h.type
  cases a with
  | ud u =>
    rw [Value.pointers_ud hty]
    have hw : v.v = u := h.word (fun hs => nomatch hs)
    rw [hw]
    rfl
  | number n => exact Value.pointers_plain (by rw [hty]; exact fun hx => nomatch hx)
  | boolean b => exact Value.pointers_plain (by rw [hty]; exact fun hx => nomatch hx)
  | string str => exact Value.pointers_plain (by rw [hty]; exact fun hx => nomatch hx)

/-- `set_number`, `set_boolean` and `set_ud`. -/
theorem World.Rep.setPlain_puts (h : w.Rep t s tb m) (htidy : w.Tidy) {c : SetCall}
    (hk : c.key.Fits) (hadm : m.Admits c) (hty : c.arg.type ≠ .string) {type : LType}
    (hins : w.insertTable t c.key { c.tmp with type := c.arg.type, v := c.arg.word c.tmp }
      = some (type, w')) (h' : w'.Rep t (s.put c.key c.arg) tb' m') :
    w.Puts t tb m c w' tb' m' := by
  have hacc := h.accepts hadm
  have hwritten : c.arg.Written c.tmp { c.tmp with type := c.arg.type, v := c.arg.word c.tmp } :=
    ⟨rfl, fun _ => rfl⟩
  obtain ⟨haccount, hframe, -⟩ := h.insertTable_owned (w := w) hk c.arg.type_ne_nil
    (fun a ha => by rw [hacc a ha]; exact hty) (fun _ => hty) rfl (World.valueBlocks_plain hty w)
    (.refl w []) hins h'
  obtain ⟨href, hpointers⟩ := h.insertTable_puts c.arg.type_ne_nil hins h'
    (fun n hn => h.inv.admits_plain hadm hn)
  refine ⟨href, hframe.tables, ?_, World.accounts_nodes haccount, ?_, hframe.destroyed,
    htidy.frame hframe⟩
  · intro a _ _
    rw [hframe.lstrings, hframe.slots]
    exact ⟨rfl, rfl⟩
  · intro x
    rw [hpointers x, Arg.pointers_written hwritten]

/-- `set_string` under a new key. -/
theorem World.Rep.insertString_puts (h : w.Rep t s tb m) (htidy : w.Tidy) {c : SetCall}
    (hk : c.key.Fits) {str : Bytes} (harg : c.arg = .string str)
    (hn : m.find c.key = none) {type : LType}
    (hins : (w.withString str).insertTable t c.key { c.tmp with type := .string, v := w.brk }
      = some (type, w')) (h' : w'.Rep t (s.put c.key c.arg) tb' m') :
    w.Puts t tb m c w' tb' m' := by
  have hs : s c.key = none := (h.typeAt_eq_nil c.key).mp (LMap.typeAt_absent hn)
  have hnil : LType.string ≠ .nil := by decide
  -- below the new lstring and its slot all is as it was
  have hls : ∀ a, a < w.brk → (w.withString str).lstrings a = w.lstrings a :=
    fun a ha => Function.update_of_ne (Nat.ne_of_lt ha) ..
  have hsl : ∀ a, a < w.brk → (w.withString str).slots a = w.slots a :=
    fun a ha => Function.update_of_ne (Nat.ne_of_lt (Nat.lt_succ_of_lt ha)) ..
  have hrep : (w.withString str).Rep t s tb m := h.congr rfl (Nat.le_add_right _ 2) hls hsl
  have hsame : (w.withString str).stringBlocks m = w.stringBlocks m := by
    apply World.stringBlocks_congr
    intro n hn hty
    obtain ⟨key, a, -, -, -, hv⟩ := h.of_node hn
    rw [hty] at hv
    obtain ⟨-, slot, -, hp, -⟩ := h.of_view_string hv
    exact hls _ (h.old key _ slot hv hp).1
  have haccount : w.Accounts [] (w.withString str) [w.brk, w.brk + 1] := by
    refine ⟨Nat.le_add_right w.brk 2, ?_⟩
    intro a
    show w.freed.count a + [w.brk, w.brk + 1].count a
      = w.freed.count a + 0 + handedOut w.brk (w.brk + 2) a
    rw [handedOut_two]
    rfl
  have hblocks : (w.withString str).valueBlocks { c.tmp with type := .string, v := w.brk }
      = [w.brk, w.brk + 1] :=
    World.valueBlocks_string rfl (Function.update_self ..)
  obtain ⟨hacc', hframe, -⟩ := hrep.insertTable_owned (w := w) hk hnil
    (fun a ha => absurd (hs.symm.trans ha) (by simp)) (fun hne => absurd hs hne) hsame hblocks
    haccount hins h'
  obtain ⟨href, hpointers⟩ := hrep.insertTable_puts hnil hins h'
    (fun n hn' => absurd (hn.symm.trans hn') (by simp))
  refine ⟨href, fun x hx => (hframe.tables x hx).trans rfl, ?_, World.accounts_nodes hacc', ?_,
    hframe.destroyed, ?_⟩
  · intro a ha _
    rw [hframe.lstrings, hframe.slots]
    exact ⟨hls a ha, hsl a ha⟩
  · intro x
    rw [hpointers x, Value.pointers_plain (show LType.string ≠ .ud by decide), harg]
    rfl
  · have hsound : w.Sound t tb m := ⟨h.toOwns, h.inv.toWf, htidy⟩
    exact (hsound.withString str).tidy.frame hframe

/-- `_update_string` destroys no table. -/
theorem World.updateString_log {p : Addr} {str : Bytes} (hx : w.updateString p str = some w') :
    w'.destroyed = w.destroyed := by
  unfold World.updateString World.swapSlot World.decSlot World.freeSlot at hx
  obtain ⟨⟨⟨old, ref⟩, w₁⟩, hswap, hx⟩ := Option.bind_eq_some_iff.mp hx
  obtain ⟨ls, -, hswap⟩ := Option.bind_eq_some_iff.mp hswap
  obtain ⟨⟨ref', w₂⟩, hdec, hswap⟩ := Option.bind_eq_some_iff.mp hswap
  obtain ⟨sl, -, hdec⟩ := Option.bind_eq_some_iff.mp hdec
  cases hdec
  cases hswap
  dsimp only at hx
  split at hx
  · obtain ⟨sl', -, hx⟩ := Option.bind_eq_some_iff.mp hx
    cases hx
    rfl
  · cases hx
    rfl

/-- `set_string` on a string: its slot is swapped. -/
theorem World.Rep.updateString_puts (h : w.Rep t s tb m) (htidy : w.Tidy) {c : SetCall}
    {str : Bytes} (harg : c.arg = .string str) {n : Node} (hn : m.find c.key = some n)
    (hty : n.v.type = .string) (hup : w.updateString n.v.v str = some w')
    (h' : w'.Rep t (s.put c.key c.arg) tb' m') : w.Puts t tb m c w' tb' m' := by
  obtain ⟨hmem, hstored⟩ := LMap.find_mem hn
  have hview : m.view c.key = some (.string, n.v.v) := by
    unfold LMap.view
    rw [hn, ← hty]
    rfl
  obtain ⟨str₀, slot, -, hls, hsl⟩ := h.of_view_string hview
  have hlt := h.old c.key n.v.v slot hview hls
  obtain ⟨w₁, heq, hbrk, htables, hls', hsl', hfreed⟩ :=
    World.updateString_spec hls hsl rfl hlt.2 str
  rw [hup, Option.some.injEq] at heq
  subst heq
  have howns := h.toOwns.congr htables (by rw [hbrk]; exact Nat.le_succ _)
  obtain ⟨rfl, rfl⟩ := howns.unique h'.toOwns
  obtain ⟨w₂, heq, -, -, htidy', -⟩ := htidy.updateString (htidy.of_updateString hup) str
  rw [hup, Option.some.injEq] at heq
  have hnode := World.mem_valueBlocks hty hls
  refine ⟨rfl, fun x _ => by rw [htables], ?_, ⟨by rw [hbrk]; exact Nat.le_succ _, ?_⟩, ?_,
    World.updateString_log hup, by rw [heq]; exact htidy'⟩
  · intro a ha hnot
    have hap : a ≠ n.v.v := by
      intro hap
      rw [hap] at hnot
      exact hnot (World.mem_nodeBlocks hmem (List.mem_append_right _ hnode.1))
    have has : a ≠ slot := by
      intro has
      rw [has] at hnot
      exact hnot (World.mem_nodeBlocks hmem (List.mem_append_right _ hnode.2))
    rw [hls', hsl']
    exact ⟨Function.update_of_ne hap ..,
      (Function.update_of_ne has ..).trans (Function.update_of_ne (Nat.ne_of_lt ha) ..)⟩
  · -- the blocks of the other nodes are what they were
    obtain ⟨l₁, l₂, hsplit, hkeys⟩ := h.inv.entries_split hmem hstored
    have hother : ∀ x ∈ l₁ ++ l₂, x.v.type = .string → w'.lstrings x.v.v = w.lstrings x.v.v := by
      intro x hx hxty
      have hxm : x ∈ m'.entries := by
        rw [hsplit]
        rcases List.mem_append.mp hx with hx | hx
        · exact List.mem_append_left _ hx
        · exact List.mem_append_right _ (List.mem_cons_of_mem n hx)
      obtain ⟨key, a, hk, -, -, hv⟩ := h.of_node hxm
      rw [hxty] at hv
      obtain ⟨-, slot', -, hp, -⟩ := h.of_view_string hv
      rw [hls']
      refine Function.update_of_ne ?_ ..
      intro hpn
      have hkk := h.alone key c.key _ _ slot' slot hv hview hp hls (Or.inl hpn)
      exact hkeys x hx (by rw [hk, hkk])
    have hnew : w'.valueBlocks n.v = [n.v.v, w.brk] :=
      World.valueBlocks_string hty (by rw [hls']; exact Function.update_self ..)
    have hlist : ∀ v : World, v.nodeBlocks m'.entries = v.nodeBlocks l₁
        ++ ((n.blocks ++ v.valueBlocks n.v) ++ v.nodeBlocks l₂) := by
      intro v
      unfold World.nodeBlocks
      rw [hsplit, List.flatMap_append, List.flatMap_cons]
    intro a
    have hone := handedOut_one w.brk a
    rw [hlist w, hlist w', hfreed, hbrk, hnew, World.valueBlocks_string hty hls,
      World.nodeBlocks_congr (fun x hx => hother x (List.mem_append_left _ hx)),
      World.nodeBlocks_congr (fun x hx => hother x (List.mem_append_right _ hx))]
    simp only [List.count_cons, List.count_append, List.count_nil] at hone ⊢
    omega
  · intro x
    rw [harg]
    exact (Nat.zero_add _).symm

/-- A setter call under a key that admits it. -/
theorem World.Rep.set_puts (h : w.Rep t s tb m) (htidy : w.Tidy) {c : SetCall} (hk : c.key.Fits)
    (hadm : m.Admits c) (hb : w.bucketsAsked t c < 2147483648) :
    ∃ w' tb' m', w.set t c = some (0, w') ∧ w'.Rep t (s.put c.key c.arg) tb' m'
      ∧ w.Puts t tb m c w' tb' m' := by
  obtain ⟨w', tb', m', heq, h', -⟩ := h.set hk (h.accepts hadm) hb
  have hsound : w.Sound t tb m := ⟨h.toOwns, h.inv.toWf, htidy⟩
  refine ⟨w', tb', m', heq, h', ?_⟩
  cases hsound.set_case heq with
  | refused hty n hn hne hw =>
    -- the key would hold another type
    have hnil : m.typeAt c.key ≠ .nil := by
      rw [LMap.typeAt_found hn]
      exact h.inv.type n (LMap.find_mem hn).1
    have hsame := hadm.1.resolve_left hnil
    rw [LMap.typeAt_found hn, hty] at hsame
    exact absurd hsame hne
  | swapped str harg n hn hty hup => exact h.updateString_puts htidy harg hn hty hup h'
  | insertedString str harg hn type hins => exact h.insertString_puts htidy hk harg hn hins h'
  | insertedPlain hty type hins => exact h.setPlain_puts htidy hk hadm hty hins h'

/-! ## §4. What every run keeps. -/

/-- Between the steps.  `st t` is the store that the table `t` represents; the
live tables are those with references, which they count, and every address
handed out is held by one live table or was freed. -/
structure SessionState.Inv (s : SessionState) (st : Addr → Store) : Prop where
  pos : 1 ≤ s.w.brk
  old : ∀ t ∈ s.made, t < s.w.brk
  known : ∀ t, (s.w.tables t).isSome → t ∈ s.made
  fresh : ∀ t, t ∉ s.made → st t = Store.empty
  tidy : s.w.Tidy
  rep : ∀ t ∈ s.live, ∃ tb m, s.w.Rep t (st t) tb m ∧ tb.ref = s.refs t
  counts : ∀ t, t ∈ s.live ↔ 0 < s.refs t
  small : ∀ t, s.refs t < 2147483648
  accounts : ∀ a, s.w.freed.count a + ∑ t ∈ s.live, (s.w.blocksOf t).count a
    = handedOut 1 s.w.brk a
  log : ∀ t, s.w.destroyed.count t + (if t ∈ s.live then 1 else 0)
    = if t ∈ s.made then 1 else 0

variable {st st' : Addr → Store} {S S' : SessionState}

theorem SessionState.mem_live : t ∈ S.live ↔ t ∈ S.made ∧ (S.w.tables t).isSome := by
  unfold SessionState.live
  rw [Finset.mem_filter, List.mem_toFinset]

theorem SessionState.Inv.live_iff (h : S.Inv st) : t ∈ S.live ↔ (S.w.tables t).isSome := by
  rw [SessionState.mem_live]
  exact ⟨fun hx => hx.2, fun hx => ⟨h.known t hx, hx⟩⟩

theorem SessionState.Inv.none_of_not_live (h : S.Inv st) (ht : t ∉ S.live) :
    S.w.tables t = none := by
  rw [h.live_iff] at ht
  exact Option.not_isSome_iff_eq_none.mp ht

theorem SessionState.start_inv : SessionState.start.Inv (fun _ => Store.empty) where
  pos := Nat.le_refl 1
  old := fun t ht => absurd ht (by simp [SessionState.start])
  known := fun t ht => absurd ht (by simp [SessionState.start, World.empty])
  fresh := fun _ _ => rfl
  tidy := World.empty_tidy
  rep := fun t ht => absurd (SessionState.mem_live.mp ht).1 (by simp [SessionState.start])
  counts := fun t => ⟨fun ht => absurd (SessionState.mem_live.mp ht).1 (by simp [SessionState.start]),
    fun ht => absurd ht (Nat.lt_irrefl 0)⟩
  small := fun _ => Nat.two_pow_pos 31
  accounts := fun a => (handedOut_self 1 a).symm
  log := fun _ => rfl

/-- A table whose object and strings are where they were holds what it held. -/
theorem World.Rep.move_blocks (h : w.Rep t s tb m) {r : Int}
    (htable : w'.tables t = some { tb with ref := r }) (hbrk : w.brk ≤ w'.brk)
    (hstr : ∀ a ∈ w.nodeBlocks m.entries, w'.lstrings a = w.lstrings a ∧ w'.slots a = w.slots a) :
    w'.stores t = w.stores t ∧ w'.blocksOf t = w.blocksOf t := by
  have h' := h.move htable hbrk hstr
  refine ⟨by rw [h'.toOwns.stores, h.toOwns.stores], ?_⟩
  have hls : ∀ n ∈ m.entries, n.v.type = .string → w'.lstrings n.v.v = w.lstrings n.v.v := by
    intro n hn hty
    obtain ⟨key, a, -, -, -, hv⟩ := h.of_node hn
    rw [hty] at hv
    obtain ⟨str, slot, -, hslot, -⟩ := h.of_view_string hv
    have hmem := (World.mem_valueBlocks hty hslot).1
    exact (hstr _ (World.mem_nodeBlocks hn (List.mem_append_right _ hmem))).1
  rw [h'.toOwns.blocksOf, h.toOwns.blocksOf, World.nodeBlocks_congr hls]

/-- A table that a step leaves alone. -/
theorem World.Rep.stays (h : w.Rep t s tb m) (htable : w'.tables t = w.tables t)
    (hbrk : w.brk ≤ w'.brk)
    (hstr : ∀ a ∈ w.nodeBlocks m.entries, w'.lstrings a = w.lstrings a ∧ w'.slots a = w.slots a) :
    w'.Rep t s tb m ∧ w'.stores t = w.stores t ∧ w'.blocksOf t = w.blocksOf t :=
  have htable : w'.tables t = some { tb with ref := tb.ref } := htable.trans h.table
  ⟨h.move htable hbrk hstr, h.move_blocks htable hbrk hstr⟩

/-- The lstrings that a table stores are live. -/
theorem World.Rep.live (h : w.Rep t s tb m) : ∀ n ∈ m.entries, n.v.type = .string → w.Live n.v.v := by
  intro n hn hty
  obtain ⟨key, a, -, -, -, hv⟩ := h.of_node hn
  rw [hty] at hv
  obtain ⟨str, slot, -, hls, hsl⟩ := h.of_view_string hv
  exact ⟨slot, _, hls, hsl⟩

/-- Two live tables hold no block together. -/
theorem SessionState.Inv.disjoint (h : S.Inv st) {x y : Addr} (hx : x ∈ S.live) (hy : y ∈ S.live)
    (hne : x ≠ y) {a : Addr} (ha : a ∈ S.w.blocksOf x) : a ∉ S.w.blocksOf y := by
  intro hay
  have hsum := h.accounts a
  have hone := handedOut_le_one 1 S.w.brk a
  have hle := Finset.single_le_sum (f := fun z => (S.w.blocksOf z).count a)
    (fun _ _ => Nat.zero_le _) (Finset.mem_erase.mpr ⟨hne, hx⟩)
  have hpos := List.count_pos_iff.mpr ha
  have hpos' := List.count_pos_iff.mpr hay
  rw [sum_erase hy] at hsum
  omega

/-- What a live table holds was handed out. -/
theorem SessionState.Inv.below (h : S.Inv st) {x : Addr} (hx : x ∈ S.live) {a : Addr}
    (ha : a ∈ S.w.blocksOf x) : a < S.w.brk := by
  have hsum := h.accounts a
  have hle := Finset.single_le_sum (f := fun z => (S.w.blocksOf z).count a)
    (fun _ _ => Nat.zero_le _) hx
  have hpos := List.count_pos_iff.mpr ha
  unfold handedOut at hsum
  split at hsum
  next hlt => exact hlt.2
  next => omega

theorem World.Owns.mem_blocksOf (h : w.Owns t tb m) {a : Addr} (ha : a ∈ w.nodeBlocks m.entries) :
    a ∈ w.blocksOf t := by
  rw [h.blocksOf]
  exact List.mem_cons_of_mem _ (List.mem_cons_of_mem _ ha)

/-! ## §5. One step: counting. -/

/-- The tables as they are. -/
def World.snapshot (w : World) : Snapshot where
  table t := (w.tables t).getD { ref := 0, map := 0, maps := fun _ => none }
  map t := (w.current t).getD (LMap.new 29)
  blocks := w.blocksOf

theorem World.snapshot_pointers (w : World) : w.snapshot.pointers = w.stores := by
  funext t
  show ((w.current t).getD (LMap.new 29)).pointers = ((w.current t).map LMap.pointers).getD []
  cases w.current t <;> rfl

theorem World.Owns.snapshot_table (h : w.Owns t tb m) : w.snapshot.table t = tb := by
  unfold World.snapshot
  simp [h.table]

theorem World.Owns.snapshot_map (h : w.Owns t tb m) : w.snapshot.map t = m := by
  unfold World.snapshot
  simp [h.current]

/-- Between the steps the live tables stand. -/
theorem SessionState.Inv.stands (h : S.Inv st) : S.w.snapshot.Stands S.w S.live S.held [] where
  rest := by
    intro x hx
    obtain ⟨tb, m, hrep, href⟩ := h.rep x hx
    have hmap := hrep.toOwns.snapshot_map
    rw [World.snapshot_pointers]
    refine ⟨?_, ?_, ?_, ?_, ?_⟩
    · rw [hrep.toOwns.snapshot_table]
      show S.w.tables x = some { tb with ref := (S.refs x : Int) }
      rw [hrep.table, ← href]
    · rw [hrep.toOwns.snapshot_table, hmap]
      exact hrep.map
    · rw [hmap]
      exact hrep.inv.toWf
    · rw [hmap]
      exact hrep.live
    · intro a
      rw [hrep.toOwns.snapshot_table, hmap]
      exact congrArg _ hrep.toOwns.blocksOf
  live := by
    rw [World.snapshot_pointers]
    exact h.counts
  small := by
    rw [World.snapshot_pointers]
    exact h.small
  apart := by
    intro a
    have hsum := h.accounts a
    have hone := handedOut_le_one 1 S.w.brk a
    have hblocks : S.w.snapshot.blocks = S.w.blocksOf := rfl
    rw [hblocks, List.count_nil]
    omega

/-- There are fewer tables than addresses in use. -/
theorem SessionState.Inv.card_le (h : S.Inv st) : S.live.card ≤ S.w.brk := by
  have hsub : S.live ⊆ Finset.range S.w.brk := by
    intro x hx
    exact Finset.mem_range.mpr (h.old x (SessionState.mem_live.mp hx).1)
  have hcard := Finset.card_le_card hsub
  rwa [Finset.card_range] at hcard

/-- A step that only counts: the live tables stand with other references, and
those without any went. -/
theorem SessionState.Inv.counted (h : S.Inv st) {L' : Finset Addr} {rest : List Addr}
    (hs : S.w.snapshot.Stands w' L' rest []) (hl : S.w.snapshot.Lets S.w S.live [] w' L') :
    SessionState.Inv { S with w := w', held := rest } st := by
  have hlive : SessionState.live { S with w := w', held := rest } = L' := by
    ext x
    rw [SessionState.mem_live]
    constructor
    · rintro ⟨-, hx⟩
      have hx : (w'.tables x).isSome := hx
      by_contra hn
      by_cases hxl : x ∈ S.live
      · rw [hl.gone x hxl hn] at hx
        exact absurd hx (by simp)
      · rw [hl.others x hxl, h.none_of_not_live hxl] at hx
        exact absurd hx (by simp)
    · intro hx
      refine ⟨(SessionState.mem_live.mp (hl.sub hx)).1, ?_⟩
      show (w'.tables x).isSome
      rw [(hs.rest x hx).table]
      rfl
  -- the tables that are left hold what they held
  have hkeep : ∀ x ∈ L', ∃ tb m, S.w.Rep x (st x) tb m
      ∧ w'.tables x = some { tb with ref := (Owners.refs S.w.stores L' rest x : Int) }
      ∧ ∀ a ∈ S.w.nodeBlocks m.entries, w'.lstrings a = S.w.lstrings a ∧ w'.slots a = S.w.slots a := by
    intro x hx
    obtain ⟨tb, m, hrep, -⟩ := h.rep x (hl.sub hx)
    refine ⟨tb, m, hrep, ?_, ?_⟩
    · rw [(hs.rest x hx).table, hrep.toOwns.snapshot_table, World.snapshot_pointers]
    · intro a ha
      refine hl.strings a ?_ (by simp)
      intro y hy hyn
      exact h.disjoint (hl.sub hx) hy (fun hxy => hyn (by rw [← hxy]; exact hx))
        (hrep.toOwns.mem_blocksOf ha)
  have hbrk : S.w.brk ≤ w'.brk := Nat.le_of_eq hl.brk.symm
  have hsame : ∀ x ∈ L', w'.stores x = S.w.stores x ∧ w'.blocksOf x = S.w.blocksOf x := by
    intro x hx
    obtain ⟨tb, m, hrep, htable, hstr⟩ := hkeep x hx
    exact hrep.move_blocks htable hbrk hstr
  have hrefs : ∀ x, SessionState.refs { S with w := w', held := rest } x
      = Owners.refs S.w.stores L' rest x := by
    intro x
    unfold SessionState.refs
    rw [hlive]
    exact refs_congr (fun p hp => (hsame p hp).1) rest x
  refine ⟨by rw [hl.brk]; exact h.pos, ?_, ?_, h.fresh, ?_, ?_, ?_, ?_, ?_, ?_⟩
  · intro t ht
    show t < w'.brk
    rw [hl.brk]
    exact h.old t ht
  · intro t ht
    have ht : (w'.tables t).isSome := ht
    by_cases htl : t ∈ S.live
    · exact (SessionState.mem_live.mp htl).1
    · rw [hl.others t htl] at ht
      exact h.known t ht
  · intro a slot ha
    rw [show SessionState.w { S with w := w', held := rest } = w' from rfl, hl.brk]
    exact h.tidy a slot (hl.lstrings a _ ha)
  · intro t ht
    rw [hlive] at ht
    obtain ⟨tb, m, hrep, htable, hstr⟩ := hkeep t ht
    exact ⟨_, m, hrep.move htable hbrk hstr, congrArg Int.ofNat (hrefs t).symm⟩
  · intro t
    rw [hlive, hrefs, ← World.snapshot_pointers]
    exact hs.live t
  · intro t
    rw [hrefs, ← World.snapshot_pointers]
    exact hs.small t
  · intro a
    have hfreed := hl.freed a
    have hsum := h.accounts a
    rw [hlive, Finset.sum_congr rfl (fun x hx => congrArg (List.count a) (hsame x hx).2)]
    rw [List.count_nil, Nat.add_zero] at hfreed
    exact hfreed.trans (hsum.trans (by rw [← hl.brk]))
  · intro t
    have hlog := hl.log t
    have hmade := h.log t
    rw [hlive]
    exact hlog.trans hmade

/-- The same references, in another order. -/
theorem Snapshot.Stands.perm {S : Snapshot} {L : Finset Addr} {pending pending' extra : List Addr}
    (h : S.Stands w L pending extra) (hperm : pending.Perm pending') : S.Stands w L pending' extra where
  rest := by
    intro x hx
    rw [← refs_perm hperm]
    exact h.rest x hx
  live := by
    intro x
    rw [← refs_perm hperm]
    exact h.live x
  small := by
    intro x
    rw [← refs_perm hperm]
    exact h.small x
  apart := h.apart

/-- The client lets go of one reference. -/
theorem SessionState.Inv.letGo (h : S.Inv st) (ht : t ∈ S.held) :
    S.w.snapshot.Stands S.w S.live (t :: S.held.erase t) [] :=
  h.stands.perm (List.perm_cons_erase ht)

theorem SessionState.Inv.release (h : S.Inv st) (ht : t ∈ S.held) :
    ∃ w', S.w.release t = some w'
      ∧ SessionState.Inv { S with w := w', held := S.held.erase t } st := by
  obtain ⟨w', L', hrun, hs, hl⟩ :=
    releaseFuel_lets S.w.snapshot S.w.brk t S.w S.live _ [] (h.letGo ht) h.card_le
  exact ⟨w', hrun, h.counted hs hl⟩

/-- `delete` by the only one who refers to the table. -/
theorem SessionState.Inv.delete (h : S.Inv st) (ht : t ∈ S.held) (hone : S.refs t = 1) :
    ∃ w', S.w.delete t = some w'
      ∧ SessionState.Inv { S with w := w', held := S.held.erase t } st := by
  have hlast : Owners.refs S.w.snapshot.pointers S.live (S.held.erase t) t = 0 := by
    have herase : Owners.refs S.w.stores S.live (S.held.erase t) t + (if t = t then 1 else 0)
        = S.refs t := refs_erase_pending S.w.stores S.live ht t
    rw [if_pos rfl] at herase
    rw [World.snapshot_pointers]
    omega
  obtain ⟨w', L', hrun, -, hs, hl⟩ := (releaseFuel_lets S.w.snapshot S.w.brk).deleteTable
    ((h.letGo ht).dying hlast) (Nat.le_succ_of_le h.card_le)
  exact ⟨w', hrun, h.counted hs hl⟩

/-- `grab` of a live table, below the limit of an `int`. -/
theorem SessionState.Inv.grab (h : S.Inv st) (ht : (S.w.tables t).isSome)
    (hsmall : S.refs t + 1 < 2147483648) :
    ∃ w', S.w.grab t = some w' ∧ SessionState.Inv { S with w := w', held := t :: S.held } st := by
  have hstands := h.stands
  have htl := h.live_iff.mpr ht
  have hrest := hstands.rest t htl
  set r := Owners.refs S.w.snapshot.pointers S.live S.held t with hr
  have hsmall : r + 1 < 2147483648 := by
    rw [hr, World.snapshot_pointers]
    exact hsmall
  have hnext : asInt ((r : Int) + 1) = ((r + 1 : Nat) : Int) := by
    unfold asInt
    omega
  have hrefs : ∀ x, Owners.refs S.w.snapshot.pointers S.live (t :: S.held) x
      = Owners.refs S.w.snapshot.pointers S.live S.held x + if t = x then 1 else 0 :=
    refs_cons S.w.snapshot.pointers S.live t S.held
  set w' := S.w.putTable t { S.w.snapshot.table t with ref := ((r + 1 : Nat) : Int) } with hw'
  have hlets : S.w.snapshot.Lets S.w S.live [] w' S.live :=
    ⟨Subset.refl _, rfl,
      fun x hx => World.putTable_tables_ne _ (fun hxt => hx (by rw [hxt]; exact htl)) _,
      fun _ hx hn => absurd hx hn, fun _ _ _ => ⟨rfl, rfl⟩, fun _ _ hx => hx, fun _ => rfl,
      fun _ => rfl⟩
  refine ⟨w', ?_, h.counted ⟨?_, ?_, ?_, hstands.apart⟩ hlets⟩
  · unfold World.grab
    simp only [hrest.table, Option.bind_eq_bind, Option.bind_some, hnext]
    rfl
  · intro x hx
    by_cases hxt : x = t
    · subst hxt
      rw [hrefs, if_pos rfl, ← hr]
      exact hrest.move (World.putTable_tables_self _ _ _) (fun _ _ => ⟨rfl, rfl⟩)
    · rw [hrefs, if_neg (Ne.symm hxt)]
      exact (hstands.rest x hx).move
        ((World.putTable_tables_ne _ hxt _).trans (hstands.rest x hx).table) (fun _ _ => ⟨rfl, rfl⟩)
  · intro x
    rw [hrefs]
    by_cases hxt : t = x
    · rw [← hxt, if_pos rfl]
      exact ⟨fun _ => Nat.succ_pos _, fun _ => htl⟩
    · rw [if_neg hxt]
      exact hstands.live x
  · intro x
    have hx := hstands.small x
    rw [hrefs]
    by_cases hxt : t = x
    · subst hxt
      rw [if_pos rfl, ← hr]
      exact hsmall
    · rw [if_neg hxt]
      exact hx

/-! ## §6. One step: a new table. -/

theorem SessionState.Inv.create (h : S.Inv st) :
    ∃ w', S.w.newTable = some (S.w.brk, w')
      ∧ SessionState.Inv { w := w', made := S.w.brk :: S.made, held := S.w.brk :: S.held } st := by
  obtain ⟨w', -, hnew, -⟩ := S.w.newTable_spec
  obtain ⟨-, hbrk, hls, hsl, hlog, hother, tb, howns, href⟩ := World.of_newTable hnew
  obtain ⟨haccount, -, -⟩ := World.newTable_accounts hnew howns.table
  obtain ⟨tb₀, hrep₀⟩ := World.Rep.newTable hnew
  obtain ⟨rfl, -⟩ := howns.unique hrep₀.toOwns
  have hle : S.w.brk ≤ w'.brk := by
    rw [hbrk]
    exact Nat.le_add_right _ 2
  have hnmade : S.w.brk ∉ S.made := fun hmem => Nat.lt_irrefl _ (h.old _ hmem)
  have hnlive : S.w.brk ∉ S.live := fun hmem => hnmade (SessionState.mem_live.mp hmem).1
  set S' : SessionState := { w := w', made := S.w.brk :: S.made, held := S.w.brk :: S.held } with hS'
  have hlive : S'.live = insert S.w.brk S.live := by
    ext x
    rw [SessionState.mem_live, Finset.mem_insert]
    by_cases hx : x = S.w.brk
    · subst hx
      exact ⟨fun _ => Or.inl rfl, fun _ => ⟨List.mem_cons_self, by rw [howns.table]; rfl⟩⟩
    · rw [SessionState.mem_live, hother x hx]
      exact ⟨fun hm => Or.inr ⟨(List.mem_cons.mp hm.1).resolve_left hx, hm.2⟩,
        fun hm => ⟨List.mem_cons_of_mem _ (hm.resolve_left hx).1, (hm.resolve_left hx).2⟩⟩
  -- the other tables hold what they held
  have hkeep : ∀ x ∈ S.live, ∃ tb m, w'.Rep x (st x) tb m ∧ tb.ref = S.refs x
      ∧ w'.stores x = S.w.stores x ∧ w'.blocksOf x = S.w.blocksOf x := by
    intro x hx
    obtain ⟨tb, m, hrep, href⟩ := h.rep x hx
    have hne : x ≠ S.w.brk := fun hxb => hnlive (by rw [← hxb]; exact hx)
    obtain ⟨hrep', hsame⟩ := hrep.stays (hother x hne) hle (fun a _ => by rw [hls, hsl]; exact ⟨rfl, rfl⟩)
    exact ⟨tb, m, hrep', href, hsame⟩
  have hrefs : ∀ x, S'.refs x = S.refs x + if S.w.brk = x then 1 else 0 := by
    intro x
    have hstores : w'.stores S.w.brk = [] := howns.stores
    show Owners.refs w'.stores S'.live (S.w.brk :: S.held) x = _
    rw [hlive, refs_cons, refs_insert hnlive hstores,
      refs_congr (fun p hp => (hkeep p hp).choose_spec.choose_spec.2.2.1)]
    rfl
  have hzero : S.refs S.w.brk = 0 := Nat.eq_zero_of_not_pos (fun hpos => hnlive ((h.counts _).mpr hpos))
  refine ⟨w', hnew, Nat.le_trans h.pos hle, ?_, ?_, ?_, ?_, ?_, ?_, ?_, ?_, ?_⟩
  · intro t ht
    show t < w'.brk
    rcases List.mem_cons.mp ht with rfl | ht
    · rw [hbrk]
      exact Nat.lt_add_of_pos_right Nat.two_pos
    · exact Nat.lt_of_lt_of_le (h.old t ht) hle
  · intro t ht
    by_cases hts : t = S.w.brk
    · rw [hts]
      exact List.mem_cons_self
    · have ht : (w'.tables t).isSome := ht
      rw [hother t hts] at ht
      exact List.mem_cons_of_mem _ (h.known t ht)
  · exact fun t ht => h.fresh t (fun hm => ht (List.mem_cons_of_mem _ hm))
  · intro a slot ha
    have ha : w'.lstrings a = some ⟨slot⟩ := ha
    rw [hls] at ha
    exact Nat.lt_of_lt_of_le (h.tidy a slot ha) hle
  · intro t ht
    rw [hlive] at ht
    rcases Finset.mem_insert.mp ht with rfl | ht
    · refine ⟨tb₀, LMap.new 29, ?_, ?_⟩
      · rw [h.fresh _ hnmade]
        exact hrep₀
      · rw [hrefs, hzero, if_pos rfl, href]
        rfl
    · obtain ⟨tb, m, hrep, href, -⟩ := hkeep t ht
      refine ⟨tb, m, hrep, ?_⟩
      rw [hrefs, if_neg (fun hb => hnlive (by rw [hb]; exact ht)), href]
      rfl
  · intro t
    rw [hlive, hrefs, Finset.mem_insert, h.counts]
    by_cases hb : S.w.brk = t
    · rw [if_pos hb]
      exact ⟨fun _ => Nat.succ_pos _, fun _ => Or.inl hb.symm⟩
    · rw [if_neg hb, Nat.add_zero]
      exact ⟨fun ht => ht.resolve_left (Ne.symm hb), Or.inr⟩
  · intro t
    rw [hrefs]
    by_cases hb : S.w.brk = t
    · subst hb
      rw [hzero, if_pos rfl]
      decide
    · rw [if_neg hb]
      exact h.small t
  · intro a
    have hsum := h.accounts a
    have hcount := haccount.count a
    have hadd := handedOut_add h.pos hle a
    have hnewBlocks : w'.blocksOf S.w.brk = [S.w.brk, tb₀.map] := howns.blocksOf
    rw [hlive, Finset.sum_insert hnlive, hnewBlocks,
      Finset.sum_congr rfl (fun x hx => congrArg (List.count a)
        (hkeep x hx).choose_spec.choose_spec.2.2.2)]
    show w'.freed.count a + _ = handedOut 1 w'.brk a
    rw [List.count_nil] at hcount
    omega
  · intro t
    have hold := h.log t
    have hmem : (if t ∈ S.w.brk :: S.made then 1 else 0)
        = (if S.w.brk = t then 1 else 0) + if t ∈ S.made then 1 else 0 := by
      by_cases hb : S.w.brk = t
      · subst hb
        simp [hnmade]
      · simp [hb, Ne.symm hb]
    have hmem' : (if t ∈ insert S.w.brk S.live then 1 else 0)
        = (if S.w.brk = t then 1 else 0) + if t ∈ S.live then 1 else 0 := by
      by_cases hb : S.w.brk = t
      · subst hb
        simp [hnlive]
      · simp [hb, Ne.symm hb]
    show w'.destroyed.count t + (if t ∈ S'.live then 1 else 0)
      = if t ∈ S.w.brk :: S.made then 1 else 0
    rw [hlive, hmem, hmem', hlog]
    omega

/-! ## §7. One step: a setter. -/

/-- The store after a call on `t`. -/
def storesSet (st : Addr → Store) (t : Addr) (c : SetCall) : Addr → Store :=
  Function.update st t ((st t).put c.key c.arg)

theorem storesSet_self (st : Addr → Store) (t : Addr) (c : SetCall) :
    storesSet st t c t = (st t).put c.key c.arg := Function.update_self ..

theorem storesSet_ne (st : Addr → Store) {t x : Addr} (h : x ≠ t) (c : SetCall) :
    storesSet st t c x = st x := Function.update_of_ne h ..

/-- The pointer that is stored was held. -/
theorem handOver_perm {held : List Addr} {c : SetCall} (h : ∀ u ∈ c.arg.pointer, u ∈ held) :
    (c.arg.pointer.toList ++ handOver held c).Perm held := by
  unfold handOver
  cases hp : c.arg.pointer with
  | none => exact List.Perm.refl held
  | some u => exact (List.perm_cons_erase (h u hp)).symm

/-- What a setter does in a session, with what it leaves alone. -/
structure SessionState.Sets (S : SessionState) (st : Addr → Store) (t : Addr) (c : SetCall)
    (w' : World) : Prop where
  rep : ∃ tb m tb' m', S.w.Rep t (st t) tb m ∧ tb.ref = S.refs t
    ∧ w'.Rep t ((st t).put c.key c.arg) tb' m' ∧ S.w.Puts t tb m c w' tb' m'
  others : ∀ x ∈ S.live, x ≠ t → ∃ tb m, w'.Rep x (st x) tb m ∧ tb.ref = S.refs x
    ∧ w'.stores x = S.w.stores x ∧ w'.blocksOf x = S.w.blocksOf x

theorem SessionState.Inv.sets (h : S.Inv st) {c : SetCall} (ht : t ∈ S.live)
    (hs : S.Proper (.set t c)) : ∃ w', S.w.set t c = some (0, w') ∧ S.Sets st t c w' := by
  obtain ⟨m₀, hcur, hshort, hty, hb, hptr⟩ := hs
  obtain ⟨tb, m, hrep, href⟩ := h.rep t ht
  have hm : m₀ = m := Option.some.inj (hcur.symm.trans hrep.toOwns.current)
  rw [hm] at hty hptr
  have hadm : m.Admits c := by
    refine ⟨hty, ?_⟩
    intro hud
    cases harg : c.arg with
    | ud u => exact (hptr u (by rw [harg]; rfl)).1
    | number n => rw [harg] at hud; exact nomatch hud
    | boolean b => rw [harg] at hud; exact nomatch hud
    | string str => rw [harg] at hud; exact nomatch hud
  obtain ⟨w', tb', m', heq, hrep', hputs⟩ := hrep.set_puts h.tidy hshort.fits hadm hb
  refine ⟨w', heq, ⟨tb, m, tb', m', hrep, href, hrep', hputs⟩, ?_⟩
  intro x hx hxt
  obtain ⟨tbx, mx, hrepx, hrefx⟩ := h.rep x hx
  have hstr : ∀ a ∈ S.w.nodeBlocks mx.entries,
      w'.lstrings a = S.w.lstrings a ∧ w'.slots a = S.w.slots a := by
    intro a ha
    have hax := hrepx.toOwns.mem_blocksOf ha
    refine hputs.strings a (h.below hx hax) ?_
    exact fun hat => h.disjoint hx ht hxt hax (hrep.toOwns.mem_blocksOf hat)
  obtain ⟨hrepx', hsame⟩ := hrepx.stays (hputs.others x hxt) hputs.accounts.brk hstr
  exact ⟨tbx, mx, hrepx', hrefx, hsame⟩

theorem SessionState.Inv.set (h : S.Inv st) {c : SetCall} (hs : S.Proper (.set t c)) :
    ∃ w', S.w.set t c = some (0, w')
      ∧ SessionState.Inv { S with w := w', held := handOver S.held c } (storesSet st t c) := by
  have hsome : (S.w.tables t).isSome := by
    obtain ⟨m₀, hcur, -⟩ := hs
    obtain ⟨tb, htb, -⟩ := Option.bind_eq_some_iff.mp hcur
    rw [htb]
    rfl
  have htl := h.live_iff.mpr hsome
  obtain ⟨w', heq, hsets⟩ := h.sets htl hs
  obtain ⟨tb, m, tb', m', hrep, href, hrep', hputs⟩ := hsets.rep
  have hptr : ∀ u ∈ c.arg.pointer, u ∈ S.held := by
    obtain ⟨m₀, -, -, -, -, hptr⟩ := hs
    exact fun u hu => (hptr u hu).2
  set S' : SessionState := { S with w := w', held := handOver S.held c } with hS'
  have hbrk := hputs.accounts.brk
  have hsomes : ∀ x, (w'.tables x).isSome = (S.w.tables x).isSome := by
    intro x
    by_cases hxt : x = t
    · rw [hxt, hrep'.table, hrep.table]
      rfl
    · rw [hputs.others x hxt]
  have hlive : S'.live = S.live := by
    ext x
    rw [SessionState.mem_live, SessionState.mem_live]
    show x ∈ S.made ∧ (w'.tables x).isSome ↔ _
    rw [hsomes]
  -- the call moves references from the client to the table
  have hrefs : ∀ x, S'.refs x = S.refs x := by
    intro x
    show Owners.refs w'.stores S'.live (handOver S.held c) x = Owners.refs S.w.stores S.live S.held x
    have hself : ∀ y, (w'.stores t).count y
        = c.arg.pointer.toList.count y + (S.w.stores t).count y := by
      intro y
      rw [hrep'.toOwns.stores, hrep.toOwns.stores]
      exact hputs.pointers y
    have hother : ∀ p ∈ S.live, p ≠ t → w'.stores p = S.w.stores p := by
      intro p hp hpt
      obtain ⟨-, -, -, -, hstores, -⟩ := hsets.others p hp hpt
      exact hstores
    rw [hlive, refs_take htl hself hother, refs_perm (handOver_perm hptr)]
  refine ⟨w', heq, Nat.le_trans h.pos hbrk, ?_, ?_, ?_, hputs.tidy, ?_, ?_, ?_, ?_, ?_⟩
  · exact fun x hx => Nat.lt_of_lt_of_le (h.old x hx) hbrk
  · intro x hx
    have hx : (w'.tables x).isSome := hx
    rw [hsomes] at hx
    exact h.known x hx
  · intro x hx
    have hxt : x ≠ t := fun hxt => hx (by rw [hxt]; exact (SessionState.mem_live.mp htl).1)
    exact (storesSet_ne st hxt c).trans (h.fresh x hx)
  · intro x hx
    rw [hlive] at hx
    rw [hrefs]
    by_cases hxt : x = t
    · subst hxt
      refine ⟨tb', m', ?_, hputs.ref.trans href⟩
      rw [storesSet_self]
      exact hrep'
    · obtain ⟨tbx, mx, hrepx, hrefx, -⟩ := hsets.others x hx hxt
      refine ⟨tbx, mx, ?_, hrefx⟩
      rw [storesSet_ne st hxt]
      exact hrepx
  · intro x
    rw [hlive, hrefs]
    exact h.counts x
  · intro x
    rw [hrefs]
    exact h.small x
  · intro a
    have hsum := h.accounts a
    have hcount := hputs.accounts.count a
    have hadd := handedOut_add h.pos hbrk a
    rw [sum_erase htl, hrep.toOwns.blocksOf] at hsum
    rw [hlive, sum_erase htl, hrep'.toOwns.blocksOf]
    have hothers : ∑ x ∈ S.live.erase t, (w'.blocksOf x).count a
        = ∑ x ∈ S.live.erase t, (S.w.blocksOf x).count a := by
      refine Finset.sum_congr rfl ?_
      intro x hx
      obtain ⟨-, -, -, -, -, hblocks⟩ :=
        hsets.others x (Finset.mem_of_mem_erase hx) (Finset.ne_of_mem_erase hx)
      rw [hblocks]
    show w'.freed.count a + (∑ x ∈ S.live.erase t, (w'.blocksOf x).count a + _) = handedOut 1 w'.brk a
    rw [hothers, List.count_cons (b := t)]
    rw [List.count_cons (b := t)] at hsum
    omega
  · intro x
    have hold := h.log x
    rw [hlive]
    show w'.destroyed.count x + _ = _
    rw [hputs.destroyed]
    exact hold

/-! ## §8. Every run. -/

/-- The stores after a step. -/
def storesAfter (st : Addr → Store) : SessionStep → Addr → Store
  | .set t c => storesSet st t c
  | _ => st

/-- A proper step goes through and returns 0. -/
theorem SessionState.Inv.step (h : S.Inv st) {e : SessionStep} (he : S.Proper e) :
    ∃ S', S.step e = some (0, S') ∧ S'.Inv (storesAfter st e) := by
  cases e with
  | create =>
    obtain ⟨w', hnew, h'⟩ := h.create
    exact ⟨_, by simp only [SessionState.step, hnew]; rfl, h'⟩
  | grab t =>
    obtain ⟨w', hgrab, h'⟩ := h.grab he.1 he.2
    exact ⟨_, by simp only [SessionState.step, hgrab]; rfl, h'⟩
  | release t =>
    obtain ⟨w', hrel, h'⟩ := h.release he
    exact ⟨_, by simp only [SessionState.step, hrel]; rfl, h'⟩
  | delete t =>
    obtain ⟨w', hdel, h'⟩ := h.delete he.1 he.2
    exact ⟨_, by simp only [SessionState.step, hdel]; rfl, h'⟩
  | set t c =>
    obtain ⟨w', hset, h'⟩ := h.set he
    exact ⟨_, by simp only [SessionState.step, hset]; rfl, h'⟩

theorem callsOn_snoc (t : Addr) (steps : List SessionStep) (e : SessionStep) :
    lastSet (callsOn t (steps ++ [e])) = storesAfter (fun t => lastSet (callsOn t steps)) e t := by
  unfold callsOn
  rw [List.filterMap_append]
  cases e with
  | set t' c =>
    by_cases ht : t' = t
    · subst ht
      simp only [List.filterMap_cons, List.filterMap_nil, if_true, lastSet_snoc, storesAfter,
        storesSet_self]
    · simp only [List.filterMap_cons, List.filterMap_nil, if_neg ht, List.append_nil, storesAfter,
        storesSet_ne _ (Ne.symm ht)]
  | create => rw [List.filterMap_cons, List.filterMap_nil, List.append_nil]; rfl
  | grab t' => rw [List.filterMap_cons, List.filterMap_nil, List.append_nil]; rfl
  | release t' => rw [List.filterMap_cons, List.filterMap_nil, List.append_nil]; rfl
  | delete t' => rw [List.filterMap_cons, List.filterMap_nil, List.append_nil]; rfl

/-- Every proper run goes through, and each table represents the last values
set in it. -/
theorem SessionState.run_inv (steps : List SessionStep)
    (h : Run.Along SessionState.step SessionState.Proper .start steps) :
    ∃ s : SessionState,
      Run.run SessionState.step .start steps = some (List.replicate steps.length 0, s)
      ∧ s.Inv (fun t => lastSet (callsOn t steps)) := by
  induction steps using List.reverseRecOn with
  | nil => exact ⟨.start, rfl, SessionState.start_inv⟩
  | append_singleton steps e ih =>
    obtain ⟨s, hrun, hinv⟩ := ih (Run.along_take _ h)
    have he : s.Proper e := (Run.along_drop _ h hrun).1
    obtain ⟨s', hstep, hinv'⟩ := hinv.step he
    refine ⟨s', ?_, ?_⟩
    · refine (Run.run_snoc_some _).mpr ⟨_, s, 0, hrun, hstep, ?_⟩
      rw [List.length_append, List.length_singleton, List.replicate_succ']
    · rw [show (fun t => lastSet (callsOn t (steps ++ [e])))
        = storesAfter (fun t => lastSet (callsOn t steps)) e from funext (fun t => callsOn_snoc t steps e)]
      exact hinv'

theorem SessionState.inv_of_run {steps : List SessionStep} {os : List Int} {s : SessionState}
    (hp : Run.Along SessionState.step SessionState.Proper .start steps)
    (hx : Run.run SessionState.step .start steps = some (os, s)) :
    s.Inv (fun t => lastSet (callsOn t steps)) := by
  obtain ⟨s', hrun, hinv⟩ := SessionState.run_inv steps hp
  rw [hx] at hrun
  cases hrun
  exact hinv

/-! ## §9. What a client can rely on. -/

/-- The tables are not stored in a circle. -/
def World.Acyclic (w : World) : Prop := ∀ t, ¬ Relation.TransGen (Edge w.stores) t t

/-- The table `t` is reached from a table that the client holds. -/
def SessionState.Reached (s : SessionState) (t : Addr) : Prop :=
  ∃ u ∈ s.held, Relation.ReflTransGen (Edge s.w.stores) u t

/-- A client that keeps to the rules is never stuck, and its setters succeed. -/
theorem session_goes_on {steps : List SessionStep}
    (hp : Run.Along SessionState.step SessionState.Proper .start steps) :
    ∃ s, Run.run SessionState.step .start steps = some (List.replicate steps.length 0, s) := by
  obtain ⟨s, hrun, -⟩ := SessionState.run_inv steps hp
  exact ⟨s, hrun⟩

/-- Two tables: the second holds a string and is stored in the first, which is
then let go. -/
def nestAndRelease : List SessionStep :=
  [.create, .create, .set 3 ⟨.num 7, .string [97], .blank⟩, .grab 3,
    .set 1 ⟨.str [107], .ud 3, .blank⟩, .release 1]

/-- And the second one after it. -/
theorem session_goes_on_two :
    ∃ s, Run.run SessionState.step .start (nestAndRelease ++ [.release 3])
      = some ([0, 0, 0, 0, 0, 0, 0], s) :=
  session_goes_on (by decide +kernel)

/-- A table that was created is there with its number of references in its
counter, or nobody refers to it any more and it was destroyed, once. -/
theorem session_counts {steps : List SessionStep} {os : List Int} {s : SessionState} {t : Addr}
    (hp : Run.Along SessionState.step SessionState.Proper .start steps)
    (hx : Run.run SessionState.step .start steps = some (os, s)) (ht : t ∈ s.made) :
    (s.w.getref t = some (s.refs t : Int) ∧ 0 < s.refs t ∧ t ∉ s.w.destroyed)
      ∨ (s.w.getref t = none ∧ s.refs t = 0 ∧ s.w.destroyed.count t = 1) := by
  have h := SessionState.inv_of_run hp hx
  have hlog := h.log t
  rw [if_pos ht] at hlog
  by_cases htl : t ∈ s.live
  · left
    obtain ⟨tb, m, hrep, href⟩ := h.rep t htl
    rw [if_pos htl] at hlog
    refine ⟨?_, (h.counts t).mp htl, List.count_eq_zero.mp (by omega)⟩
    unfold World.getref
    rw [hrep.table, ← href]
    rfl
  · right
    rw [if_neg htl] at hlog
    refine ⟨?_, Nat.eq_zero_of_not_pos (fun hpos => htl ((h.counts t).mpr hpos)), hlog⟩
    unfold World.getref
    rw [h.none_of_not_live htl]
    rfl

/-- The first table is gone, the second one is still held. -/
theorem session_counts_two :
    ∃ s : SessionState, s.made = [3, 1] ∧ s.refs 3 = 1
      ∧ ((s.w.getref 3 = some (s.refs 3 : Int) ∧ 0 < s.refs 3 ∧ 3 ∉ s.w.destroyed)
        ∨ (s.w.getref 3 = none ∧ s.refs 3 = 0 ∧ s.w.destroyed.count 3 = 1)) := by
  have hgo : (Run.run SessionState.step .start nestAndRelease).map
      (fun p => (p.2.made, p.2.refs 3)) = some ([3, 1], 1) := by decide +kernel
  obtain ⟨⟨os, s⟩, hrun, hq⟩ := Option.map_eq_some_iff.mp hgo
  simp only [Prod.mk.injEq] at hq
  exact ⟨s, hq.1, hq.2, session_counts (by decide +kernel) hrun (by rw [hq.1]; decide)⟩

/-- The tables that are there are finite maps, each of the calls made on it:
no other table's calls, and no other table's end, show. -/
theorem session_reads {steps : List SessionStep} {os : List Int} {s : SessionState} {t : Addr}
    (hp : Run.Along SessionState.step SessionState.Proper .start steps)
    (hx : Run.run SessionState.step .start steps = some (os, s)) (ht : t ∈ s.live) (key : Key) :
    s.w.ReadsAs t key (lastSet (callsOn t steps) key) := by
  obtain ⟨tb, m, hrep, -⟩ := (SessionState.inv_of_run hp hx).rep t ht
  exact hrep.readsAs key

/-- The second table still reads as it was set. -/
theorem session_reads_two :
    ∃ s : SessionState, s.w.ReadsAs 3 (.num 7) (some (.string [97])) := by
  have hgo : (Run.run SessionState.step .start nestAndRelease).map
      (fun p => decide (3 ∈ p.2.live)) = some true := by decide +kernel
  obtain ⟨⟨os, s⟩, hrun, hlive⟩ := Option.map_eq_some_iff.mp hgo
  exact ⟨s, session_reads (by decide +kernel) hrun (of_decide_eq_true hlive) (.num 7)⟩

/-- Nothing is freed twice or while a table holds it; every table that the
client can reach is there; without a circle no other is, and every block that
no such table holds was freed. -/
theorem session_frees {steps : List SessionStep} {os : List Int} {s : SessionState}
    (hp : Run.Along SessionState.step SessionState.Proper .start steps)
    (hx : Run.run SessionState.step .start steps = some (os, s)) :
    (∀ a, s.w.freed.count a ≤ 1) ∧ (∀ t, ∀ a ∈ s.w.blocksOf t, a ∉ s.w.freed)
      ∧ (∀ t, s.Reached t → t ∈ s.live)
      ∧ (s.w.Acyclic → (∀ t ∈ s.live, s.Reached t)
          ∧ ∀ a, 1 ≤ a → a < s.w.brk → a ∈ s.w.freed ∨ ∃ t, s.Reached t ∧ a ∈ s.w.blocksOf t) := by
  have h := SessionState.inv_of_run hp hx
  have hblocks : ∀ t, ∀ a ∈ s.w.blocksOf t, t ∈ s.live := by
    intro t a ha
    by_contra htl
    unfold World.blocksOf at ha
    rw [h.none_of_not_live htl] at ha
    exact absurd ha (by simp)
  have hreached : s.w.Acyclic → ∀ t ∈ s.live, s.Reached t := by
    intro hacyc t htl
    exact exists_reached hacyc (fun x hx => (h.counts x).mp hx) htl
  refine ⟨?_, ?_, ?_, fun hacyc => ⟨hreached hacyc, ?_⟩⟩
  · intro a
    have hsum := h.accounts a
    have hone := handedOut_le_one 1 s.w.brk a
    omega
  · intro t a ha hf
    have hsum := h.accounts a
    have hone := handedOut_le_one 1 s.w.brk a
    have hle := Finset.single_le_sum (f := fun z => (s.w.blocksOf z).count a)
      (fun _ _ => Nat.zero_le _) (hblocks t a ha)
    have hpos := List.count_pos_iff.mpr ha
    have hpos' := List.count_pos_iff.mpr hf
    omega
  · rintro t ⟨u, hu, hut⟩
    exact mem_of_reached h.counts hu hut
  · intro a h1 h2
    have hsum := h.accounts a
    have hout : handedOut 1 s.w.brk a = 1 := if_pos ⟨h1, h2⟩
    by_cases hf : a ∈ s.w.freed
    · exact Or.inl hf
    · right
      rw [List.count_eq_zero.mpr hf, hout, Nat.zero_add] at hsum
      obtain ⟨t, htl, hcount⟩ :=
        Finset.exists_ne_zero_of_sum_ne_zero (by rw [hsum]; exact Nat.one_ne_zero)
      exact ⟨t, hreached hacyc t htl, List.count_pos_iff.mp (Nat.pos_of_ne_zero hcount)⟩

/-- Both tables are let go: all is freed. -/
theorem session_frees_two :
    ∃ s : SessionState, s.held = []
      ∧ (∀ a, s.w.freed.count a ≤ 1) ∧ (∀ t, ∀ a ∈ s.w.blocksOf t, a ∉ s.w.freed)
      ∧ (∀ t, s.Reached t → t ∈ s.live)
      ∧ (s.w.Acyclic → (∀ t ∈ s.live, s.Reached t)
          ∧ ∀ a, 1 ≤ a → a < s.w.brk → a ∈ s.w.freed ∨ ∃ t, s.Reached t ∧ a ∈ s.w.blocksOf t) := by
  have hgo : (Run.run SessionState.step .start (nestAndRelease ++ [.release 3])).map
      (fun p => p.2.held) = some [] := by decide +kernel
  obtain ⟨⟨os, s⟩, hrun, hheld⟩ := Option.map_eq_some_iff.mp hgo
  exact ⟨s, hheld, session_frees (by decide +kernel) hrun⟩

end LightTable
