/-
  LightTable.Table.Ownership
  ──────────────────────────
  A table owns its memory until it is destroyed.

  While calls are accepted, what the run has allocated is either freed or held
  exactly once: by the table, its map object, the nodes and key strings, or the
  lstring and the slot behind a string value (`World.Owned`).  A doubling frees
  the old nodes but moves the values to their copies, `set_string` on a string
  trades one slot for another, and the destructor frees all that is held
  (`World.Owned.delete`).
-/
import LightTable.Table.Ledger
import LightTable.Table.Correctness

namespace LightTable

open ChainedHash

variable {w w₀ w' : World} {t : Addr} {s : Store} {tb : Table} {m m' : LMap} {c : SetCall}
  {pre calls : List SetCall}

/-! ## §1. The strings of a map. -/

/-- The lstring and the slot behind a value. -/
def World.valueBlocks (w : World) (v : Value) : List Addr :=
  match v.type with
  | .string => v.v :: ((w.lstrings v.v).map LString.slot).toList
  | _ => []

/-- The lstrings and slots behind the values of a map. -/
def World.stringBlocks (w : World) (m : LMap) : List Addr :=
  m.entries.flatMap (fun n => w.valueBlocks n.v)

theorem World.valueBlocks_plain {v : Value} (hv : v.type ≠ .string) (w : World) :
    w.valueBlocks v = [] := by
  unfold World.valueBlocks
  split
  next h => exact absurd h hv
  next => rfl

theorem World.valueBlocks_string {v : Value} (hv : v.type = .string) {slot : Addr}
    (hls : w.lstrings v.v = some ⟨slot⟩) : w.valueBlocks v = [v.v, slot] := by
  unfold World.valueBlocks
  rw [hv, hls]
  rfl

theorem World.valueBlocks_congr {v : Value}
    (h : v.type = .string → w'.lstrings v.v = w.lstrings v.v) :
    w'.valueBlocks v = w.valueBlocks v := by
  by_cases hv : v.type = .string
  · unfold World.valueBlocks
    rw [h hv]
  · rw [World.valueBlocks_plain hv, World.valueBlocks_plain hv]

theorem World.stringBlocks_congr
    (h : ∀ n ∈ m.entries, n.v.type = .string → w'.lstrings n.v.v = w.lstrings n.v.v) :
    w'.stringBlocks m = w.stringBlocks m := by
  unfold World.stringBlocks
  rw [List.flatMap_def, List.flatMap_def]
  congr 1
  apply List.map_congr_left
  intro n hn
  exact World.valueBlocks_congr (h n hn)

/-- Maps of the same contents have the same strings. -/
theorem World.count_stringBlocks (w : World)
    (h : (m'.entries.map Node.content).Perm (m.entries.map Node.content)) (a : Addr) :
    (w.stringBlocks m').count a = (w.stringBlocks m).count a := by
  have hcontent : ∀ m : LMap, w.stringBlocks m
      = (m.entries.map Node.content).flatMap (fun p => w.valueBlocks p.2) := by
    intro m
    rw [List.flatMap_map]
    rfl
  rw [hcontent, hcontent]
  exact (h.flatMap_right _).count_eq a

/-- Linking a node adds the strings of its value. -/
theorem World.count_stringBlocks_link (w : World) (hm : m.Sized) (key : Key) (n : Node) (a : Addr) :
    (w.stringBlocks (m.link key n)).count a
      = (w.valueBlocks n.v).count a + (w.stringBlocks m).count a := by
  have hperm := ((hm.entries_link key n).flatMap_right (fun x => w.valueBlocks x.v)).count_eq a
  rw [List.flatMap_cons, List.count_append] at hperm
  exact hperm

/-- Overwriting the union of values that are no strings moves no string. -/
theorem World.stringBlocks_overwrite (w : World) (hm : m.Sized) {key : Key} {u : Word}
    (hkey : ∀ n ∈ m.entries, n.storedKey = some key → n.v.type ≠ .string) :
    w.stringBlocks (m.overwrite key u) = w.stringBlocks m := by
  have hmap : (m.overwrite key u).entries.map (fun n => w.valueBlocks n.v)
      = m.entries.map (fun n => w.valueBlocks n.v) := by
    apply hm.map_overwrite_of
    intro n hn hk
    rw [World.valueBlocks_plain (hkey n hn hk)]
    exact World.valueBlocks_plain (show (n.setWord u).v.type ≠ .string from hkey n hn hk) w
  unfold World.stringBlocks
  rw [List.flatMap_def, List.flatMap_def, hmap]

/-- The strings after an insert under a key that holds no string. -/
theorem World.Rep.count_stringBlocks_inserted (h : w.Rep t s tb m) {key : Key}
    (hkey : ∀ a, s key = some a → a.type ≠ .string) (w' : World) (brk : Addr) {v : Value}
    (hv : s key ≠ none → v.type ≠ .string) (a : Addr) : (w'.stringBlocks (m.inserted brk key v)).count a
      = (w'.valueBlocks v).count a + (w'.stringBlocks m).count a := by
  have hsized := h.inv.toSized
  cases hf : m.find key with
  | none =>
    rw [LMap.inserted_absent hf, w'.count_stringBlocks_link hsized]
    rfl
  | some n =>
    obtain ⟨hmem, hstored⟩ := LMap.find_mem hf
    have hplain : ∀ x ∈ m.entries, x.storedKey = some key → x.v.type ≠ .string := by
      intro x hx hxk
      obtain ⟨key', b, hk', hb, hty, -⟩ := h.of_node hx
      rw [hxk, Option.some.injEq] at hk'
      rw [hty]
      exact hkey b (by rw [hk', hb])
    have hpresent : s key ≠ none := by
      obtain ⟨key', b, hk', hb, -⟩ := h.of_node hmem
      rw [hstored, Option.some.injEq] at hk'
      rw [hk', hb]
      exact Option.some_ne_none b
    rw [LMap.inserted_found hf, w'.stringBlocks_overwrite hsized hplain,
      World.valueBlocks_plain (hv hpresent), List.count_nil, Nat.zero_add]

/-! ## §2. Owned memory. -/

/-- The table at `t` represents `s`, and all that was allocated since `w₀` was
freed or is held by the table, exactly once. -/
structure World.Owned (w₀ w : World) (t : Addr) (s : Store) (tb : Table) (m : LMap) : Prop
    extends w.Rep t s tb m where
  tidy : w.Tidy
  plain : ∀ key a, s key = some a → a.type ≠ .ud
  accounts : w₀.Accounts [] w (t :: tb.map :: (m.blocks ++ w.stringBlocks m))

theorem World.Owned.sound (h : World.Owned w₀ w t s tb m) : w.Sound t tb m :=
  ⟨h.toOwns, h.inv.toWf, h.tidy⟩

/-- A step that accounts for the map and its strings. -/
theorem World.Owned.step (h : World.Owned w₀ w t s tb m) {s' : Store} {tb' : Table}
    (hrep : w'.Rep t s' tb' m') (ht : w'.Tidy) (hp : ∀ key a, s' key = some a → a.type ≠ .ud)
    (hacc : w.Accounts (tb.map :: (m.blocks ++ w.stringBlocks m)) w'
      (tb'.map :: (m'.blocks ++ w'.stringBlocks m'))) : World.Owned w₀ w' t s' tb' m' := by
  refine ⟨hrep, ht, hp, h.accounts.trans ?_⟩
  apply (hacc.append [t]).congr
  · intro a
    simp only [List.count_cons, List.count_append, List.count_nil]
    omega
  · intro a
    simp only [List.count_cons, List.count_append, List.count_nil]
    omega

theorem Store.put_plain (hp : ∀ key a, s key = some a → a.type ≠ .ud) {key : Key} {a : Arg}
    (ha : a.type ≠ .ud) : ∀ key' b, s.put key a key' = some b → b.type ≠ .ud := by
  intro key' b hb
  by_cases hk : key' = key
  · subst hk
    rw [Store.put_self] at hb
    cases hb
    exact ha
  · rw [Store.put_ne s hk] at hb
    exact hp key' b hb

/-- A table has one current map. -/
theorem World.Owns.unique {tb' : Table} (h : w.Owns t tb m) (h' : w.Owns t tb' m') :
    tb' = tb ∧ m' = m := by
  have htb : tb' = tb := Option.some.inj (h'.table.symm.trans h.table)
  subst htb
  exact ⟨rfl, Option.some.inj (h'.map.symm.trans h.map)⟩

/-- What a call leaves of the string under a key: its lstring stays, and so
does its slot unless the call is `set_string` on the key. -/
def World.KeepsStrings (w : World) (m : LMap) (calls : List SetCall) (w' : World) (m' : LMap) : Prop :=
  ∀ key p slot, m.view key = some (.string, p) → w.lstrings p = some ⟨slot⟩ →
    m'.view key = some (.string, p) ∧ ∃ slot', w'.lstrings p = some ⟨slot'⟩
      ∧ (slot' = slot ∨ ∃ c ∈ calls, c.key = key ∧ c.arg.type = .string)

/-- An insert under a key without a string: it accounts for the blocks of the
map and the strings `str` of the new value, and no other key is touched. -/
theorem World.Rep.insertTable_owned {w₁ : World} (h : w₁.Rep t s tb m) {key : Key} (hk : key.Fits)
    {v : Value} (hnil : v.type ≠ .nil) (hkey : ∀ a, s key = some a → a.type ≠ .string)
    (hv : s key ≠ none → v.type ≠ .string)
    -- the strings of the table are what they were in `w`
    (hsame : w₁.stringBlocks m = w.stringBlocks m) {str : List Addr} (hstr : w₁.valueBlocks v = str)
    (hacc : w.Accounts [] w₁ str) {type : LType} (hins : w₁.insertTable t key v = some (type, w'))
    {s' : Store} {tb' : Table} (h' : w'.Rep t s' tb' m') :
    w.Accounts (tb.map :: (m.blocks ++ w.stringBlocks m)) w'
        (tb'.map :: (m'.blocks ++ w'.stringBlocks m'))
      ∧ World.Frame t w₁ w' ∧ ∀ key', key' ≠ key → m'.view key' = m.view key' := by
  have hwf := h.inv.toWf
  have hready := h.toOwns.of_insertTable hwf hnil hins
  obtain ⟨w₂, tb₂, m₂, heq, howns, hgrown, -, hframe, -, hmap, -⟩ :=
    h.toOwns.insertTable hwf key hnil hready
  rw [hins, Option.some.injEq, Prod.mk.injEq] at heq
  obtain ⟨-, rfl⟩ := heq
  obtain ⟨rfl, rfl⟩ := howns.unique h'.toOwns
  -- the strings of the new map: those of the old one, and the new one
  have hblocks : ∀ a, (w'.stringBlocks m').count a = str.count a + (w.stringBlocks m).count a := by
    intro a
    have hls : w'.stringBlocks m' = w₁.stringBlocks m' := by
      apply World.stringBlocks_congr
      intro n _ _
      rw [hframe.lstrings]
    rw [hls, w₁.count_stringBlocks ((hwf.inserted key w₁.brk hnil).grown hgrown hready).2,
      h.count_stringBlocks_inserted hkey w₁ w₁.brk hv, hstr, hsame]
  refine ⟨⟨?_, ?_⟩, hframe, ?_⟩
  · exact Nat.le_trans hacc.brk hmap.brk
  · intro a
    have h₁ := hacc.count a
    have h₂ := hmap.count a
    have hadd := handedOut_add hacc.brk hmap.brk a
    have hb := hblocks a
    simp only [List.count_cons, List.count_append, List.count_nil] at h₁ h₂ ⊢
    omega
  · intro key' hne
    have hview := ((h.inv.inserted hk w₁.brk hnil).grown hgrown (fun hd => (hready hd).room)).2
    rw [hview, h.inv.toSized.view_inserted hk]
    exact Function.update_of_ne hne ..

/-- A string view shows a string of the store, so a call that the store
accepts is `set_string` when it is on that key. -/
theorem World.Rep.string_key (h : w.Rep t s tb m) (hacc : s.Accepts c)
    {p : Word} (hv : m.view c.key = some (.string, p)) : c.arg.type = .string := by
  obtain ⟨str, slot, hs, -⟩ := h.of_view_string hv
  exact (hacc _ hs).symm

/-- `set_number` and `set_boolean`. -/
theorem World.Owned.setPlain (h : World.Owned w₀ w t s tb m) (hk : c.key.Fits) (hacc : s.Accepts c)
    (hc : c.arg.type ≠ .string) (hud : c.arg.type ≠ .ud) {type : LType}
    (hins : w.insertTable t c.key { c.tmp with type := c.arg.type, v := c.arg.word c.tmp }
      = some (type, w')) {tb' : Table} (h' : w'.Rep t (s.put c.key c.arg) tb' m') :
    World.Owned w₀ w' t (s.put c.key c.arg) tb' m' ∧ w.KeepsStrings m [c] w' m' := by
  obtain ⟨haccount, hframe, hview⟩ := h.toRep.insertTable_owned (w := w) hk c.arg.type_ne_nil
    (fun a ha => by rw [hacc a ha]; exact hc) (fun _ => hc) rfl (World.valueBlocks_plain hc w)
    (.refl w []) hins h'
  refine ⟨h.step h' (h.tidy.frame hframe) (Store.put_plain h.plain hud) haccount, ?_⟩
  intro key p slot hv hls
  have hne : key ≠ c.key := by
    intro hkk
    rw [hkk] at hv
    exact hc (h.string_key hacc hv)
  refine ⟨by rw [hview key hne, hv], slot, ?_, Or.inl rfl⟩
  rw [hframe.lstrings]
  exact hls

/-- The lstrings of a table are older than a new one. -/
theorem World.Rep.withString_lstrings (h : w.Rep t s tb m) (str : Bytes) {key : Key} {p : Word}
    (hv : m.view key = some (.string, p)) : (w.withString str).lstrings p = w.lstrings p := by
  obtain ⟨-, slot, -, hls, -⟩ := h.of_view_string hv
  have hlt := h.old key p slot hv hls
  exact Function.update_of_ne (Nat.ne_of_lt hlt.1) ..

/-- `set_string` on an absent key. -/
theorem World.Owned.insertString (h : World.Owned w₀ w t s tb m) (hk : c.key.Fits) {str : Bytes}
    (harg : c.arg = .string str) (hs : s c.key = none) {type : LType}
    (hins : (w.withString str).insertTable t c.key { c.tmp with type := .string, v := w.brk }
      = some (type, w')) {tb' : Table} (h' : w'.Rep t (s.put c.key c.arg) tb' m') :
    World.Owned w₀ w' t (s.put c.key c.arg) tb' m' ∧ w.KeepsStrings m [c] w' m' := by
  have hud : c.arg.type ≠ .ud := by
    rw [harg]
    exact fun hx => nomatch hx
  have habsent : ∀ a, s c.key = some a → a.type ≠ .string := by
    intro a ha
    rw [hs] at ha
    exact absurd ha (by simp)
  have hold : ∀ key p, m.view key = some (.string, p) →
      (w.withString str).lstrings p = w.lstrings p :=
    fun key p hv => h.toRep.withString_lstrings str hv
  -- the table with the new lstring and its slot beside it
  have hrep : (w.withString str).Rep t s tb m := by
    refine h.toRep.congr rfl (Nat.le_add_right _ 2) ?_ ?_
    · intro a ha
      exact Function.update_of_ne (Nat.ne_of_lt ha) ..
    · intro a ha
      exact Function.update_of_ne (Nat.ne_of_lt (Nat.lt_succ_of_lt ha)) ..
  have hsame : (w.withString str).stringBlocks m = w.stringBlocks m := by
    apply World.stringBlocks_congr
    intro n hn hty
    obtain ⟨key, a, -, -, -, hv⟩ := h.of_node hn
    rw [hty] at hv
    exact hold key _ hv
  have hblocks : (w.withString str).valueBlocks { c.tmp with type := .string, v := w.brk }
      = [w.brk, w.brk + 1] :=
    World.valueBlocks_string rfl (Function.update_self ..)
  have haccount : w.Accounts [] (w.withString str) [w.brk, w.brk + 1] := by
    constructor
    · exact Nat.le_add_right w.brk 2
    · intro a
      show w.freed.count a + [w.brk, w.brk + 1].count a
        = w.freed.count a + 0 + handedOut w.brk (w.brk + 2) a
      rw [handedOut_two]
      rfl
  obtain ⟨hacc', hframe, hview⟩ := hrep.insertTable_owned hk (show LType.string ≠ .nil by decide)
    habsent (fun hne => absurd hs hne) hsame hblocks haccount hins h'
  refine ⟨h.step h' ((h.sound.withString str).tidy.frame hframe) (Store.put_plain h.plain hud) hacc',
    ?_⟩
  intro key p slot hv hls
  have hne : key ≠ c.key := by
    intro hkk
    rw [hkk, h.absent c.key hs] at hv
    exact absurd hv (by simp)
  refine ⟨by rw [hview key hne, hv], slot, ?_, Or.inl rfl⟩
  rw [hframe.lstrings, hold key p hv]
  exact hls

/-- The node of a key stands in the walk between nodes of other keys. -/
theorem LMap.Inv.entries_split (hm : m.Inv) {n : Node} (hn : n ∈ m.entries) {key : Key}
    (hk : n.storedKey = some key) :
    ∃ l₁ l₂, m.entries = l₁ ++ n :: l₂ ∧ ∀ x ∈ l₁ ++ l₂, x.storedKey ≠ some key := by
  obtain ⟨l₁, l₂, hsplit⟩ := List.append_of_mem hn
  have hnodup := hm.nodup
  rw [hsplit, List.filterMap_append, List.filterMap_cons, hk] at hnodup
  have hnot : key ∉ l₁.filterMap Node.storedKey ++ l₂.filterMap Node.storedKey :=
    (List.nodup_cons.mp (List.nodup_middle.mp hnodup)).1
  refine ⟨l₁, l₂, hsplit, ?_⟩
  intro x hx hxk
  apply hnot
  rw [← List.filterMap_append]
  exact List.mem_filterMap.mpr ⟨x, hx, hxk⟩

/-- `set_string` on a string: a slot for a slot. -/
theorem World.Owned.updateString (h : World.Owned w₀ w t s tb m) {str : Bytes} (harg : c.arg = .string str) {n : Node} (hn : m.find c.key = some n) (hty : n.v.type = .string)
    (hup : w.updateString n.v.v str = some w') {tb' : Table}
    (h' : w'.Rep t (s.put c.key c.arg) tb' m') :
    World.Owned w₀ w' t (s.put c.key c.arg) tb' m' ∧ w.KeepsStrings m [c] w' m' := by
  have hud : c.arg.type ≠ .ud := by
    rw [harg]
    exact fun hx => nomatch hx
  obtain ⟨hmem, hstored⟩ := LMap.find_mem hn
  have hview : m.view c.key = some (.string, n.v.v) := by
    unfold LMap.view
    rw [hn, ← hty]
    rfl
  obtain ⟨str₀, slot, hs, hls, hsl⟩ := h.of_view_string hview
  have hlt := h.old c.key n.v.v slot hview hls
  obtain ⟨w₁, heq, hbrk, htables, hls', -, hfreed⟩ :=
    World.updateString_spec hls hsl rfl hlt.2 str
  rw [hup, Option.some.injEq] at heq
  subst heq
  have howns := h.toOwns.congr htables (by rw [hbrk]; exact Nat.le_succ _)
  obtain ⟨rfl, rfl⟩ := howns.unique h'.toOwns
  have hself : w'.lstrings n.v.v = some ⟨w.brk⟩ := by
    rw [hls']
    exact Function.update_self ..
  -- the lstrings of other keys are others
  have hother : ∀ key p, key ≠ c.key → m'.view key = some (.string, p) →
      w'.lstrings p = w.lstrings p := by
    intro key p hne hv
    obtain ⟨-, slot', -, hp, -⟩ := h.of_view_string hv
    have hpp : p ≠ n.v.v :=
      fun hpn => hne (h.alone key c.key p n.v.v slot' slot hv hview hp hls (Or.inl hpn))
    rw [hls']
    exact Function.update_of_ne hpp ..
  have haccount : w.Accounts (tb'.map :: (m'.blocks ++ w.stringBlocks m')) w'
      (tb'.map :: (m'.blocks ++ w'.stringBlocks m')) := by
    obtain ⟨l₁, l₂, hsplit, hkeys⟩ := h.inv.entries_split hmem hstored
    have hsame : ∀ x ∈ l₁ ++ l₂, w'.valueBlocks x.v = w.valueBlocks x.v := by
      intro x hx
      have hxm : x ∈ m'.entries := by
        rw [hsplit]
        rcases List.mem_append.mp hx with hx | hx
        · exact List.mem_append.mpr (Or.inl hx)
        · exact List.mem_append.mpr (Or.inr (List.mem_cons_of_mem n hx))
      obtain ⟨key, a, hk, -, -, hv⟩ := h.of_node hxm
      apply World.valueBlocks_congr
      intro hxty
      rw [hxty] at hv
      exact hother key x.v.v (fun hkk => hkeys x hx (by rw [hk, hkk])) hv
    have hlist : ∀ w₁ : World, w₁.stringBlocks m' = l₁.flatMap (fun x => w₁.valueBlocks x.v)
        ++ (w₁.valueBlocks n.v ++ l₂.flatMap (fun x => w₁.valueBlocks x.v)) := by
      intro w₁
      unfold World.stringBlocks
      rw [hsplit, List.flatMap_append, List.flatMap_cons]
    have hcongr : ∀ l, l ⊆ l₁ ++ l₂ →
        l.flatMap (fun x => w'.valueBlocks x.v) = l.flatMap (fun x => w.valueBlocks x.v) := by
      intro l hl
      rw [List.flatMap_def, List.flatMap_def]
      congr 1
      exact List.map_congr_left (fun x hx => hsame x (hl hx))
    rw [hlist w, hlist w', hcongr l₁ (List.subset_append_left _ _),
      hcongr l₂ (List.subset_append_right _ _), World.valueBlocks_string hty hls,
      World.valueBlocks_string hty hself]
    constructor
    · rw [hbrk]
      exact Nat.le_succ _
    · intro a
      have hone := handedOut_one w.brk a
      rw [hfreed, hbrk]
      simp only [List.count_cons, List.count_append, List.count_nil] at hone ⊢
      omega
  refine ⟨h.step h' ?_ (Store.put_plain h.plain hud) haccount, ?_⟩
  · obtain ⟨w₂, heq, -, -, htidy, -⟩ := h.tidy.updateString (h.tidy.of_updateString hup) str
    rw [hup, Option.some.injEq] at heq
    rw [heq]
    exact htidy
  · intro key p slot' hv hp
    refine ⟨hv, ?_⟩
    by_cases hkk : key = c.key
    · subst hkk
      rw [hview] at hv
      cases hv
      exact ⟨w.brk, hself, Or.inr ⟨c, List.mem_singleton_self c, rfl, by rw [harg]; rfl⟩⟩
    · exact ⟨slot', by rw [hother key p hkk hv, hp], Or.inl rfl⟩

/-- An accepted call of the three setters keeps what is owned. -/
theorem World.Owned.set (h : World.Owned w₀ w t s tb m) (hk : c.key.Fits) (hacc : s.Accepts c)
    (hud : c.arg.type ≠ .ud) (hb : w.bucketsAsked t c < 2147483648) :
    ∃ w' tb' m', w.set t c = some (0, w') ∧ World.Owned w₀ w' t (s.put c.key c.arg) tb' m'
      ∧ w.KeepsStrings m [c] w' m' := by
  obtain ⟨w', tb', m', heq, h', -⟩ := h.toRep.set hk hacc hb
  refine ⟨w', tb', m', heq, ?_⟩
  cases h.sound.set_case heq with
  | refused hty n hn hne hw =>
    -- the store would not have accepted the call
    obtain ⟨hmem, hstored⟩ := LMap.find_mem hn
    obtain ⟨key, a, hk', ha, hnty, -⟩ := h.of_node hmem
    rw [hstored, Option.some.injEq] at hk'
    rw [← hk'] at ha
    exact absurd (by rw [hnty, hacc a ha, hty]) hne
  | swapped str harg n hn hty hup => exact h.updateString harg hn hty hup h'
  | insertedString str harg hn type hins =>
    have hs : s c.key = none := (h.typeAt_eq_nil c.key).mp (LMap.typeAt_absent hn)
    exact h.insertString hk harg hs hins h'
  | insertedPlain hty type hins => exact h.setPlain hk hacc hty hud hins h'

/-! ## §3. Runs. -/

theorem World.KeepsStrings.refl (w : World) (m : LMap) : w.KeepsStrings m [] w m :=
  fun _ _ slot hv hls => ⟨hv, slot, hls, Or.inl rfl⟩

theorem World.KeepsStrings.cons {w₁ : World} {m₁ : LMap} (h₁ : w.KeepsStrings m [c] w₁ m₁)
    (h₂ : w₁.KeepsStrings m₁ calls w' m') : w.KeepsStrings m (c :: calls) w' m' := by
  intro key p slot hv hls
  obtain ⟨hv₁, slot₁, hls₁, hor₁⟩ := h₁ key p slot hv hls
  obtain ⟨hv', slot', hls', hor'⟩ := h₂ key p slot₁ hv₁ hls₁
  refine ⟨hv', slot', hls', ?_⟩
  rcases hor' with rfl | ⟨x, hx, hkey, hty⟩
  · rcases hor₁ with rfl | ⟨x, hx, hkey, hty⟩
    · exact Or.inl rfl
    · rw [List.mem_singleton.mp hx] at hkey hty
      exact Or.inr ⟨c, List.mem_cons_self, hkey, hty⟩
  · exact Or.inr ⟨x, List.mem_cons_of_mem c hx, hkey, hty⟩

/-- A run of such calls. -/
theorem World.Owned.setAll (h : World.Owned w₀ w t (lastSet pre) tb m)
    (htypes : Consistent (pre ++ calls)) (hk : ∀ c ∈ calls, c.key.Fits)
    (hud : ∀ c ∈ calls, c.arg.type ≠ .ud) (hsmall : w.StaysSmall t calls) :
    ∃ w' tb' m', w.setAll t calls = some (List.replicate calls.length 0, w')
      ∧ World.Owned w₀ w' t (lastSet (pre ++ calls)) tb' m' ∧ w.KeepsStrings m calls w' m' := by
  induction calls generalizing w pre tb m with
  | nil =>
    rw [List.append_nil]
    exact ⟨w, tb, m, rfl, h, .refl w m⟩
  | cons c calls ih =>
    have happ : pre ++ c :: calls = (pre ++ [c]) ++ calls := by simp
    rw [happ] at htypes ⊢
    have hacc : Store.Accepts (lastSet pre) c :=
      Consistent.accepts (htypes.sublist (List.sublist_append_left _ _))
    obtain ⟨w₁, tb₁, m₁, hset, h₁, hkeep₁⟩ :=
      h.set (hk c (by simp)) hacc (hud c (by simp)) hsmall.1
    rw [← lastSet_snoc] at h₁
    obtain ⟨w', tb', m', hrun, h', hkeep'⟩ := ih h₁ htypes (fun x hx => hk x (by simp [hx]))
      (fun x hx => hud x (by simp [hx])) (hsmall.2 0 w₁ hset)
    refine ⟨w', tb', m', ?_, h', hkeep₁.cons hkeep'⟩
    exact (Run.run_cons_some _).mpr ⟨0, w₁, _, hset, hrun, rfl⟩

/-- A fresh table owns itself and its map object. -/
theorem World.Owned.newTable (hw : w.Tidy) (hnew : w.newTable = some (t, w₀)) :
    ∃ tb, World.Owned w w₀ t (lastSet []) tb (LMap.new 29) := by
  obtain ⟨tb, hrep⟩ := World.Rep.newTable hnew
  obtain ⟨tb', hs⟩ := World.Sound.newTable hw hnew
  obtain ⟨hacc, -⟩ := World.newTable_accounts hnew hrep.table
  refine ⟨tb, hrep, hs.tidy, ?_, ?_⟩
  · intro key a ha
    exact absurd ha (by simp [lastSet])
  · have hblocks : (LMap.new 29).blocks ++ w₀.stringBlocks (LMap.new 29) = [] := by
      unfold LMap.blocks World.stringBlocks
      rw [LMap.new_entries]
      rfl
    rw [hblocks]
    exact hacc

/-! ## §4. The destructor. -/

/-- The values of two nodes share neither lstring nor slot. -/
def World.ShareNone (w : World) (n n' : Node) : Prop :=
  n.v.type = .string → n'.v.type = .string → n.v.v ≠ n'.v.v
    ∧ ∀ slot slot', w.lstrings n.v.v = some ⟨slot⟩ → w.lstrings n'.v.v = some ⟨slot'⟩ → slot ≠ slot'

/-- What the destructor needs of a node: it is the only user of its value, and
a string is there. -/
structure World.Clearable (w : World) (n : Node) : Prop where
  ref : n.v.ref = 1
  type : n.v.type ≠ .ud
  live : n.v.type = .string → w.Live n.v.v

/-- The world before and after `blocks` were freed; lstrings and slots that are
not among them stay. -/
structure World.Freed (w : World) (blocks : List Addr) (w' : World) : Prop where
  brk : w'.brk = w.brk
  tables : w'.tables = w.tables
  count : ∀ a, w'.freed.count a = w.freed.count a + blocks.count a

/-- `_clear_value` of a string frees its slot and its lstring. -/
theorem clearValue_string (release : Addr → World → Option World) {v : Value}
    (hty : v.type = .string) {slot : Addr} {sl : StringSlot} (hls : w.lstrings v.v = some ⟨slot⟩)
    (hsl : w.slots slot = some sl) :
    clearValue release v w = some { w with
      lstrings := Function.update w.lstrings v.v none
      slots := Function.update w.slots slot none
      freed := v.v :: slot :: w.freed } := by
  unfold clearValue World.freeSlot World.freeLString
  rw [hty]
  simp only [hls, hsl, World.free, Option.bind_eq_bind, Option.bind_some, Option.pure_def]

/-- `_clear_value` of a number or a boolean does nothing. -/
theorem clearValue_plain (release : Addr → World → Option World) {v : Value}
    (hty : v.type ≠ .string) (hud : v.type ≠ .ud) : clearValue release v w = some w := by
  unfold clearValue
  cases hv : v.type with
  | string => exact absurd hv hty
  | ud => exact absurd hv hud
  | nil => rfl
  | number => rfl
  | boolean => rfl

/-- The last user of a value frees the key string, the value and the node. -/
theorem deleteNode_last (release : Addr → World → Option World) {n : Node} (href : n.v.ref = 1) :
    deleteNode release w n
      = (clearValue release n.v { w with freed := (n.strkey.map Prod.fst).toList ++ w.freed }).map
          (fun w => w.free n.addr) := by
  unfold deleteNode
  cases n.strkey with
  | none =>
    rw [if_pos href]
    show (clearValue release n.v w).bind _ = (clearValue release n.v w).map _
    cases clearValue release n.v w <;> rfl
  | some p =>
    rw [if_pos href]
    show (clearValue release n.v (w.free p.1)).bind _ = (clearValue release n.v (w.free p.1)).map _
    cases clearValue release n.v (w.free p.1) <;> rfl

/-- A node is freed with its key string, its lstring and its slot. -/
theorem deleteNode_clearable (release : Addr → World → Option World) {n : Node}
    (h : w.Clearable n) : ∃ w', deleteNode release w n = some w'
      ∧ w.Freed (n.blocks ++ w.valueBlocks n.v) w'
      ∧ (∀ p, (n.v.type = .string → p ≠ n.v.v) → w'.lstrings p = w.lstrings p)
      ∧ ∀ a, (n.v.type = .string → w.lstrings n.v.v ≠ some ⟨a⟩) → w'.slots a = w.slots a := by
  rw [deleteNode_last release h.ref]
  -- the world without the key string
  generalize hw₁ : ({ w with freed := (n.strkey.map Prod.fst).toList ++ w.freed } : World) = w₁
  by_cases hty : n.v.type = .string
  · obtain ⟨slot, sl, hls, hsl⟩ := h.live hty
    rw [clearValue_string release hty (w := w₁) (by rw [← hw₁]; exact hls) (by rw [← hw₁]; exact hsl),
      ← hw₁]
    refine ⟨_, rfl, ⟨rfl, rfl, ?_⟩, ?_, ?_⟩
    · intro a
      show (n.addr :: n.v.v :: slot :: ((n.strkey.map Prod.fst).toList ++ w.freed)).count a = _
      rw [World.valueBlocks_string hty hls]
      unfold Node.blocks
      simp only [List.count_cons, List.count_append, List.count_nil]
      omega
    · intro p hp
      exact Function.update_of_ne (hp hty) ..
    · intro a ha
      exact Function.update_of_ne (fun has => ha hty (by rw [has, hls])) ..
  · rw [clearValue_plain release hty h.type, ← hw₁]
    refine ⟨_, rfl, ⟨rfl, rfl, ?_⟩, fun _ _ => rfl, fun _ _ => rfl⟩
    intro a
    show (n.addr :: ((n.strkey.map Prod.fst).toList ++ w.freed)).count a = _
    rw [World.valueBlocks_plain hty]
    unfold Node.blocks
    simp only [List.count_cons, List.count_append, List.count_nil]
    omega

/-- Nodes that share nothing are all freed, each with all that is its own. -/
theorem deleteNodes_clearable (release : Addr → World → Option World) {l : List Node}
    (h : ∀ n ∈ l, w.Clearable n) (hapart : l.Pairwise w.ShareNone) :
    ∃ w', l.foldlM (deleteNode release) w = some w'
      ∧ w.Freed (l.flatMap Node.blocks ++ l.flatMap (fun n => w.valueBlocks n.v)) w' := by
  induction l generalizing w with
  | nil => exact ⟨w, rfl, rfl, rfl, fun _ => rfl⟩
  | cons n l ih =>
    obtain ⟨hhead, htail⟩ := List.pairwise_cons.mp hapart
    obtain ⟨w₁, hdel, hfreed, hlstrings, hslots⟩ := deleteNode_clearable release (h n (by simp))
    -- the strings of the other nodes are where they were
    have hls : ∀ x ∈ l, x.v.type = .string → w₁.lstrings x.v.v = w.lstrings x.v.v := by
      intro x hx hxty
      apply hlstrings
      intro hty
      exact (hhead x hx hty hxty).1.symm
    have hclear : ∀ x ∈ l, w₁.Clearable x := by
      intro x hx
      obtain ⟨href, hud, hlive⟩ := h x (by simp [hx])
      refine ⟨href, hud, ?_⟩
      intro hxty
      obtain ⟨slot, sl, hslot, hsl⟩ := hlive hxty
      refine ⟨slot, sl, by rw [hls x hx hxty, hslot], ?_⟩
      rw [hslots slot, hsl]
      intro hty hn
      exact (hhead x hx hty hxty).2 slot slot hn hslot rfl
    have hpair : l.Pairwise w₁.ShareNone := by
      refine List.Pairwise.imp_of_mem ?_ htail
      intro x y hx hy hxy hxty hyty
      obtain ⟨hne, hslot⟩ := hxy hxty hyty
      refine ⟨hne, ?_⟩
      rw [hls x hx hxty, hls y hy hyty]
      exact hslot
    obtain ⟨w', hrest, hfreed'⟩ := ih hclear hpair
    refine ⟨w', ?_, hfreed'.brk.trans hfreed.brk, hfreed'.tables.trans hfreed.tables, ?_⟩
    · rw [List.foldlM_cons, hdel]
      exact hrest
    · intro a
      have hvalues : l.flatMap (fun x => w₁.valueBlocks x.v) = l.flatMap (fun x => w.valueBlocks x.v) := by
        rw [List.flatMap_def, List.flatMap_def]
        congr 1
        exact List.map_congr_left (fun x hx => World.valueBlocks_congr (hls x hx))
      have h₁ := hfreed.count a
      have h₂ := hfreed'.count a
      rw [hvalues] at h₂
      simp only [List.flatMap_cons, List.count_append] at h₁ h₂ ⊢
      omega

/-- The table is the only user of its values, and every string is there. -/
theorem World.Owned.clearable (h : World.Owned w₀ w t s tb m) :
    ∀ n ∈ m.entries, w.Clearable n := by
  intro n hn
  obtain ⟨key, a, -, ha, hty, hv⟩ := h.of_node hn
  refine ⟨h.inv.vref n hn, ?_, ?_⟩
  · rw [hty]
    exact h.plain key a ha
  · intro hstr
    rw [hstr] at hv
    obtain ⟨str, slot, -, hls, hsl⟩ := h.of_view_string hv
    exact ⟨slot, _, hls, hsl⟩

/-- No two of its values share a string. -/
theorem World.Owned.shareNone (h : World.Owned w₀ w t s tb m) : m.entries.Pairwise w.ShareNone := by
  have hkeys := List.pairwise_filterMap.mp h.inv.nodup
  refine List.Pairwise.imp_of_mem ?_ hkeys
  intro n n' hn hn' hne hty hty'
  obtain ⟨key, a, hk, -, -, hv⟩ := h.of_node hn
  obtain ⟨key', a', hk', -, -, hv'⟩ := h.of_node hn'
  rw [hty] at hv
  rw [hty'] at hv'
  have hkk : key ≠ key' := hne key hk key' hk'
  obtain ⟨-, slot₀, -, hls₀, -⟩ := h.of_view_string hv
  obtain ⟨-, slot₀', -, hls₀', -⟩ := h.of_view_string hv'
  constructor
  · intro hp
    exact hkk (h.alone key key' _ _ slot₀ slot₀' hv hv' hls₀ hls₀' (Or.inl hp))
  · intro slot slot' hls hls' hss
    exact hkk (h.alone key key' _ _ slot slot' hv hv' hls hls' (Or.inr hss))

/-- Destroying the table frees all that it holds. -/
theorem World.Owned.delete (h : World.Owned w₀ w t s tb m) :
    ∃ w', w.delete t = some w' ∧ w₀.Accounts [] w' [] := by
  set w₁ : World := w.putTable t { tb.dropMap tb.map with ref := 0 } with hw₁
  -- the table has let go of its map, the nodes are as they were
  have hclear : ∀ n ∈ m.entries, w₁.Clearable n := fun n hn =>
    ⟨(h.clearable n hn).ref, (h.clearable n hn).type, (h.clearable n hn).live⟩
  obtain ⟨w₂, hdel, hfreed⟩ :=
    deleteNodes_clearable (releaseFuel w.brk) hclear (show m.entries.Pairwise w₁.ShareNone from h.shareNone)
  have htables : w₂.tables t = some { tb.dropMap tb.map with ref := 0 } := by
    rw [hfreed.tables]
    exact World.putTable_tables_self _ _ _
  have hmap : deleteMap (releaseFuel w.brk) tb.map m w₁ = some (w₂.free tb.map) := by
    have hall : (m.data.take m.size.toNat).flatten = m.entries := by
      rw [h.inv.toWf.take_data]
      rfl
    unfold deleteMap deleteWithoutData
    rw [hall, hdel]
    rfl
  refine ⟨({ (w₂.free tb.map) with
    tables := Function.update w₂.tables t none
    destroyed := t :: w₂.destroyed } : World).free t, ?_, ?_, ?_⟩
  · have htables₁ : (w₂.free tb.map).tables t = some { tb.dropMap tb.map with ref := 0 } := htables
    unfold World.delete deleteTable
    simp only [h.table, h.map, ← hw₁, hmap, htables₁, Option.bind_eq_bind, Option.bind_some,
      Option.pure_def]
    rfl
  · show w₀.brk ≤ w₂.brk
    rw [hfreed.brk]
    exact h.accounts.brk
  · intro a
    -- what the table held is freed block by block, then its map and the table
    have hcount := h.accounts.count a
    have hnodes := hfreed.count a
    have hbrk : w₂.brk = w.brk := hfreed.brk
    have hsame : w₁.freed.count a = w.freed.count a := rfl
    have hstr : (m.entries.flatMap (fun n => w₁.valueBlocks n.v)).count a
        = (w.stringBlocks m).count a := rfl
    have hblk : (m.entries.flatMap Node.blocks).count a = m.blocks.count a := rfl
    show (t :: tb.map :: w₂.freed).count a + [].count a = _ + _ + handedOut w₀.brk w₂.brk a
    rw [hbrk]
    simp only [List.count_cons, List.count_append, List.count_nil] at hcount hnodes ⊢
    omega

/-! ## §5. Every run. -/

/-- The nodes of `m`, current in `w`, hold their values alone, and the calls
that lead to `w'` free no lstring behind them and no slot, except one that
`set_string` replaced under its key. -/
def World.Holds (w : World) (m : LMap) (calls : List SetCall) (w' : World) : Prop :=
  ∀ n ∈ m.entries, n.v.ref = 1 ∧ (n.v.type = .string →
    ∃ slot, w.lstrings n.v.v = some ⟨slot⟩ ∧ n.v.v ∉ w'.freed
      ∧ (slot ∈ w'.freed → ∃ c ∈ calls, n.storedKey = some c.key ∧ c.arg.type = .string))

/-- What a table holds was not freed. -/
theorem World.Owned.not_freed (h : World.Owned w₀ w t s tb m) (hl : w₀.Ledger []) {n : Node}
    (hn : n ∈ m.entries) {a : Addr} (ha : a ∈ w.valueBlocks n.v) : a ∉ w.freed := by
  intro hf
  have hmem : a ∈ w.stringBlocks m := List.mem_flatMap.mpr ⟨n, hn, ha⟩
  have hcount := h.accounts.count a
  have hold := hl a
  have hone := handedOut_le_one 0 w.brk a
  have hadd := handedOut_add (Nat.zero_le w₀.brk) h.accounts.brk a
  have hpos := List.count_pos_iff.mpr hf
  have hpos' := List.count_pos_iff.mpr hmem
  simp only [List.count_cons, List.count_append, List.count_nil] at hcount hold
  omega

theorem World.Owned.holds {w₁ : World} {tb₁ : Table} {m₁ : LMap} {s₁ : Store}
    (h : World.Owned w₀ w t s tb m) (h₁ : World.Owned w₀ w₁ t s₁ tb₁ m₁) (hl : w₀.Ledger [])
    (hkeep : w.KeepsStrings m calls w₁ m₁) : w.Holds m calls w₁ := by
  intro n hn
  refine ⟨h.inv.vref n hn, ?_⟩
  intro hty
  obtain ⟨key, a, hk, -, -, hv⟩ := h.of_node hn
  rw [hty] at hv
  obtain ⟨-, slot, -, hls, -⟩ := h.of_view_string hv
  -- the node of the key later on
  obtain ⟨hv₁, slot₁, hls₁, hor⟩ := hkeep key n.v.v slot hv hls
  obtain ⟨x, hx, hxv⟩ := Option.map_eq_some_iff.mp hv₁
  rw [Prod.mk.injEq] at hxv
  have hxm := (LMap.find_mem hx).1
  have hxs : w₁.lstrings x.v.v = some ⟨slot₁⟩ := by rw [hxv.2, hls₁]
  have hblocks := World.valueBlocks_string hxv.1 hxs
  refine ⟨slot, hls, ?_, ?_⟩
  · apply h₁.not_freed hl hxm
    rw [hblocks, hxv.2]
    exact List.mem_cons_self
  · intro hf
    rcases hor with rfl | ⟨c, hc, hkey, hcty⟩
    · refine absurd hf (h₁.not_freed hl hxm ?_)
      rw [hblocks]
      exact List.mem_cons_of_mem _ List.mem_cons_self
    · exact ⟨c, hc, by rw [hk, hkey], hcty⟩

/-- Accepted calls of `set_number`, `set_boolean` and `set_string` on a fresh
table, then its destruction: all that was allocated is freed once, and nothing
of the table before. -/
theorem run_frees_once (hw : w.Tidy) (hl : w.Ledger []) (hnew : w.newTable = some (t, w₀))
    (hk : ∀ c ∈ calls, c.key.Short) (hud : ∀ c ∈ calls, c.arg.type ≠ .ud)
    (htypes : Consistent calls) (hsmall : w₀.StaysSmall t calls) :
    ∃ w₁ w₂, w₀.setAll t calls = some (List.replicate calls.length 0, w₁) ∧ w₁.delete t = some w₂
      ∧ (∀ a, w.brk ≤ a → a < w₂.brk → w₂.freed.count a = 1)
      ∧ (∀ a, a < w.brk → w₂.freed.count a = w.freed.count a)
      ∧ ∀ pre post later, calls = pre ++ post ++ later →
          ∃ x y m, w₀.setAll t pre = some (List.replicate pre.length 0, x)
            ∧ x.setAll t post = some (List.replicate post.length 0, y)
            ∧ x.current t = some m ∧ x.Holds m post y := by
  obtain ⟨tb₀, h₀⟩ := World.Owned.newTable hw hnew
  have hfit : ∀ c ∈ calls, c.key.Fits := fun c hc => (hk c hc).fits
  obtain ⟨w₁, tb₁, m₁, hrun, h₁, -⟩ := h₀.setAll htypes hfit hud hsmall
  obtain ⟨w₂, hdel, hacc⟩ := h₁.delete
  refine ⟨w₁, w₂, hrun, hdel, ?_, ?_, ?_⟩
  · intro a hle hlt
    have hcount := hacc.count a
    have hold := hl a
    have hout : handedOut w.brk w₂.brk a = 1 := if_pos ⟨hle, hlt⟩
    have hnone : handedOut 0 w.brk a = 0 := if_neg (fun h => Nat.not_lt.mpr hle h.2)
    simp only [List.count_nil] at hcount
    omega
  · intro a hlt
    have hcount := hacc.count a
    have hout : handedOut w.brk w₂.brk a = 0 := if_neg (fun h => Nat.not_lt.mpr h.1 hlt)
    simp only [List.count_nil] at hcount
    omega
  · intro pre post later hcalls
    subst hcalls
    -- the run, cut after `pre` and after `post`
    have htypes₁ : Consistent ([] ++ pre) :=
      htypes.sublist ((List.sublist_append_left pre post).trans (List.sublist_append_left _ later))
    have htypes₂ : Consistent ([] ++ pre ++ post) := htypes.sublist (List.sublist_append_left _ later)
    have hmem : ∀ c, c ∈ pre ∨ c ∈ post → c ∈ pre ++ post ++ later := by
      intro c hc
      rw [List.append_assoc]
      rcases hc with hc | hc
      · exact List.mem_append.mpr (Or.inl hc)
      · exact List.mem_append.mpr (Or.inr (List.mem_append.mpr (Or.inl hc)))
    have hsmall₁ : w₀.StaysSmall t (pre ++ (post ++ later)) := by
      rw [← List.append_assoc]
      exact hsmall
    obtain ⟨x, tb, m, hpre, hx, -⟩ := h₀.setAll htypes₁ (fun c hc => hfit c (hmem c (Or.inl hc)))
      (fun c hc => hud c (hmem c (Or.inl hc))) (Run.along_take _ hsmall₁)
    have hsmall₂ : x.StaysSmall t (post ++ later) :=
      Run.along_drop (fun w c => World.set w t c) hsmall₁ hpre
    obtain ⟨y, tb', m', hpost, hy, hkeep⟩ := hx.setAll htypes₂
      (fun c hc => hfit c (hmem c (Or.inr hc))) (fun c hc => hud c (hmem c (Or.inr hc)))
      (Run.along_take _ hsmall₂)
    exact ⟨x, y, m, hpre, hpost, hx.toOwns.current, hx.holds hy hl hkeep⟩

/-- A string, eight keys of one chain, which make the map grow, and the string
again. -/
def mixedCalls : List SetCall :=
  ⟨.str [97], .string [120], .blank⟩ :: strideCalls 29 8 ++ [⟨.str [97], .string [121], .blank⟩]

/-- The theorem at these calls. -/
theorem run_frees_once_mixed :
    ∃ t w₀ w₁ w₂, World.empty.newTable = some (t, w₀)
      ∧ w₀.setAll t mixedCalls = some (List.replicate mixedCalls.length 0, w₁)
      ∧ w₁.delete t = some w₂ ∧ ∀ a, 1 ≤ a → a < w₂.brk → w₂.freed.count a = 1 := by
  have hsome : World.empty.newTable.isSome = true := by decide
  have hnew : World.empty.newTable = some (World.empty.newTable.get hsome) :=
    (Option.some_get hsome).symm
  obtain ⟨w₁, w₂, hrun, hdel, honce, -, -⟩ := @run_frees_once _ _ _ mixedCalls World.empty_tidy
    World.empty_ledger hnew (by decide) (by decide) (by decide) (by decide +kernel)
  exact ⟨_, _, w₁, w₂, hnew, hrun, hdel, honce⟩

end LightTable
