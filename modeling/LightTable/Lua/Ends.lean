/-
  LightTable.Lua.Ends
  ───────────────────
  Where a conversion ends.

  `do_convert` calls itself on every nested table and keeps no record of the
  tables it is in.  Where no table that is reached contains itself, it returns
  a light table or raises an error (`doConvert_returns`): each round leaves a
  table that setters can be called on (`World.Callable`), and the calls nest by the
  rule of `Lib.Fuel`.  On a table that contains itself it never ends
  (`convert_self_never_ends`).
-/
import LightTable.Lua.Convert
import LightTable.Table.Overwrite

namespace LightTable

open Fuel Relation

variable {w w' w'' : World} {t id : Addr} {tb : Table} {m m' : LMap} {c : SetCall} {r : Int}
  {heap : LuaHeap} {es rest : List (LuaValue × LuaValue)} {k v : LuaValue} {key : Key} {tmp : Value}
  {P : Key → Prop}

/-! ## §1. Strings stay. -/

/-- The strings that were there are there, with slots of their own. -/
structure World.StringsStay (w w' : World) : Prop where
  tidy : w'.Tidy
  apart : w'.Apart
  live : ∀ p, w.Live p → w'.Live p

theorem World.StringsStay.refl (ht : w.Tidy) (ha : w.Apart) : World.StringsStay w w where
  tidy := ht
  apart := ha
  live := fun _ hp => hp

theorem World.StringsStay.trans (h₁ : World.StringsStay w w') (h₂ : World.StringsStay w' w'') :
    World.StringsStay w w'' where
  tidy := h₂.tidy
  apart := h₂.apart
  live := fun p hp => h₂.live p (h₁.live p hp)

theorem World.Live.congr {p : Word} (h : w.Live p) (hls : w'.lstrings = w.lstrings)
    (hsl : w'.slots = w.slots) : w'.Live p := by
  unfold World.Live
  rw [hls, hsl]
  exact h

/-- A new string takes the place of none. -/
theorem World.Live.withString {p : Word} (h : w.Live p) (str : Bytes) : (w.withString str).Live p := by
  obtain ⟨slot, sl, hls, hsl⟩ := h
  by_cases hp : p = w.brk
  · rw [hp]
    exact ⟨w.brk + 1, LightTable.newString str, Function.update_self .., Function.update_self ..⟩
  · have hls' : (w.withString str).lstrings p = some ⟨slot⟩ :=
      (Function.update_of_ne hp ..).trans hls
    by_cases hs : slot = w.brk + 1
    · subst hs
      exact ⟨_, LightTable.newString str, hls', Function.update_self ..⟩
    · exact ⟨slot, sl, hls', (Function.update_of_ne hs ..).trans hsl⟩

theorem World.withString_live (w : World) (str : Bytes) : (w.withString str).Live w.brk :=
  ⟨w.brk + 1, LightTable.newString str, Function.update_self .., Function.update_self ..⟩

/-- A slot that is swapped out was the slot of one lstring only. -/
theorem World.Sound.stringsStay_swapped (h : w.Sound t tb m) (ha : w.Apart) {p : Word} {str : Bytes}
    (hup : w.updateString p str = some w') : World.StringsStay w w' := by
  obtain ⟨hs, hp, hslot, hother, hslots⟩ := h.updateString hup
  refine ⟨hs.tidy, ha.update h.tidy (Nat.le_refl _) hp hother, ?_⟩
  rintro q ⟨slot, sl, hls, hsl⟩
  by_cases hq : q = p
  · rw [hq]
    exact ⟨w.brk, _, hp, hslot⟩
  · refine ⟨slot, sl, (hother q hq).trans hls, ?_⟩
    rw [hslots slot (Nat.ne_of_lt (h.tidy q slot hls)) (fun hp => hq (ha q p slot hls hp))]
    exact hsl

/-- No setter call takes a string away. -/
theorem World.Sound.stringsStay (h : w.Sound t tb m) (ha : w.Apart) (hx : w.set t c = some (r, w')) :
    World.StringsStay w w' := by
  obtain ⟨tb', m', hs⟩ := h.set hx
  refine ⟨hs.tidy, ha.set h hx, ?_⟩
  intro p hp
  cases h.set_case hx with
  | refused hc n hn hty hw =>
    rw [hw]
    exact hp
  | swapped str harg n hn hty hup => exact (h.stringsStay_swapped ha hup).live p hp
  | insertedString str harg hn type hins =>
    obtain ⟨-, hframe, -⟩ :=
      (h.withString str).insertTable (show LType.string ≠ .nil by decide) hins
    exact (hp.withString str).congr hframe.lstrings hframe.slots
  | insertedPlain hty type hins =>
    obtain ⟨-, hframe, -⟩ := h.insertTable c.arg.type_ne_nil hins
    exact hp.congr hframe.lstrings hframe.slots

/-! ## §2. Tables that setters can be called on. -/

/-- The key of the node can be read back; a string is there, under a key of
`P`. -/
def World.Usable (w : World) (P : Key → Prop) (n : Node) : Prop :=
  ∃ key, n.storedKey = some key ∧ (n.v.type = .string → w.Live n.v.v ∧ P key)

theorem World.Usable.keeps {n : Node} (h : w.Usable P n) (hk : World.StringsStay w w') :
    w'.Usable P n := by
  obtain ⟨key, hkey, hstr⟩ := h
  exact ⟨key, hkey, fun hty => ⟨hk.live _ (hstr hty).1, (hstr hty).2⟩⟩

/-- A table at rest with usable nodes. -/
structure World.Callable (w : World) (P : Key → Prop) (t : Addr) (tb : Table) (m : LMap) : Prop
    extends w.Sound t tb m where
  usable : ∀ n ∈ m.entries, w.Usable P n

theorem World.Callable.keeps (h : w.Callable P t tb m) (hk : World.StringsStay w w') (hs : w'.Sound t tb m) :
    w'.Callable P t tb m where
  toSound := hs
  usable := fun n hn => (h.usable n hn).keeps hk

/-- Nodes are usable after an insert that writes over no string. -/
theorem LMap.Wf.usable_inserted (hm : m.Wf) (hall : ∀ n ∈ m.entries, w.Usable P n) {brk : Addr}
    {v : Value} (hover : ∀ n, m.find key = some n → n.v.type ≠ .string) (hread : key.stored ≠ none)
    (hnew : v.type = .string → w.Live v.v ∧ ∀ key' ∈ key.stored, P key') :
    ∀ n ∈ (m.inserted brk key v).entries, w.Usable P n := by
  intro n hn
  rcases hm.toSized.mem_inserted hn with hn | ⟨a, ha, rfl⟩ | ⟨-, rfl⟩
  · exact hall n hn
  · obtain ⟨hmem, hkey⟩ := LMap.find_mem ha
    exact ⟨key, hkey, fun hty => absurd hty (hover a ha)⟩
  · obtain ⟨key', hkey'⟩ := Option.ne_none_iff_exists'.mp hread
    refine ⟨key', (freshNode_stored brk key v).trans hkey', ?_⟩
    intro hty
    rw [freshNode_v] at hty ⊢
    exact ⟨(hnew hty).1, (hnew hty).2 key' hkey'⟩

/-- And when the map grows behind it. -/
theorem LMap.Wf.usable_grown {grows : Prop} (hm : m.Wf) (hg : m.Grown grows m')
    (hr : grows → m.Ready) (hall : ∀ n ∈ m.entries, w.Usable P n) :
    ∀ n ∈ m'.entries, w.Usable P n := by
  intro n hn
  -- a copy has the key and the value of a node that was there
  obtain ⟨a, ha, hcontent⟩ :=
    List.mem_map.mp ((hm.grown hg hr).2.mem_iff.mp (List.mem_map_of_mem (f := Node.content) hn))
  obtain ⟨key, hkey, hstr⟩ := hall a ha
  have hstored : a.storedKey = n.storedKey := congrArg Prod.fst hcontent
  have hv : a.v = n.v := congrArg Prod.snd hcontent
  rw [hstored] at hkey
  rw [hv] at hstr
  exact ⟨key, hkey, hstr⟩

/-- A setter call leaves a table that setters can be called on, unless it
writes over a string. -/
theorem World.Callable.set (h : w.Callable P t tb m) (ha : w.Apart) (hread : c.key.stored ≠ none)
    (hstr : c.arg.type = .string → ∀ key ∈ c.key.stored, P key)
    (hover : c.arg.type ≠ .string → ∀ n, m.find c.key = some n → n.v.type ≠ .string)
    (hx : w.set t c = some (r, w')) : ∃ tb' m', w'.Callable P t tb' m' := by
  have hkeep := h.toSound.stringsStay ha hx
  cases h.toSound.set_case hx with
  | refused hc n hn hty hw =>
    rw [hw]
    exact ⟨tb, m, h⟩
  | swapped str harg n hn hty hup => exact ⟨tb, m, h.keeps hkeep (h.toSound.updateString hup).1⟩
  | insertedString str harg hn type hins =>
    obtain ⟨-, hframe, tb', m', hs', hg, hr⟩ :=
      (h.toSound.withString str).insertTable (show LType.string ≠ .nil by decide) hins
    have hwf := h.toSound.wf.inserted c.key (w.withString str).brk
      (v := { c.tmp with type := .string, v := w.brk }) (show LType.string ≠ .nil by decide)
    have hlive : w'.Live w.brk := (w.withString_live str).congr hframe.lstrings hframe.slots
    refine ⟨tb', m', hs', hwf.usable_grown hg hr ?_⟩
    apply h.toSound.wf.usable_inserted (fun n hn => (h.usable n hn).keeps hkeep) _ hread
    · intro _
      exact ⟨hlive, hstr (by rw [harg]; rfl)⟩
    · intro n hn'
      rw [hn] at hn'
      cases hn'
  | insertedPlain hty type hins =>
    obtain ⟨-, hframe, tb', m', hs', hg, hr⟩ := h.toSound.insertTable c.arg.type_ne_nil hins
    have hwf := h.toSound.wf.inserted c.key w.brk
      (v := { c.tmp with type := c.arg.type, v := c.arg.word c.tmp }) c.arg.type_ne_nil
    refine ⟨tb', m', hs', hwf.usable_grown hg hr ?_⟩
    apply h.toSound.wf.usable_inserted (fun n hn => (h.usable n hn).keeps hkeep) (hover hty) hread
    exact fun hs => absurd hs hty

/-- A setter call on it returns. -/
theorem World.Callable.set_returns (h : w.Callable P t tb m) (hread : c.key.stored ≠ none)
    (hb : w.bucketsAsked t c < 2147483648) : ∃ r w', w.set t c = some (r, w') := by
  have hs := h.toSound
  -- an insert that reaches the depth limit finds room and keys to copy
  have hready : ¬ (c.arg.type = .string ∧ m.typeAt c.key ≠ .nil) → ∀ (brk : Addr) (v : Value),
      maxHashDepth ≤ m.depth c.key → (m.inserted brk c.key v).Ready := by
    intro hins brk v hd
    unfold World.bucketsAsked at hb
    rw [hs.toOwns.current] at hb
    simp only [if_neg hins, grownSize, if_pos hd] at hb
    refine (hs.wf.ready_inserted c.key brk v).mpr ⟨⟨hb, ?_⟩, ?_⟩
    · intro n hn
      obtain ⟨key, hkey, -⟩ := h.usable n hn
      rw [hkey]
      exact Option.some_ne_none key
    · intro _
      rw [← freshNode_readable brk c.key v, freshNode_stored]
      exact hread
  by_cases hc : c.arg.type = .string
  · obtain ⟨str, hstr⟩ := Arg.eq_string hc
    cases hf : m.find c.key with
    | some n =>
      by_cases hty : n.v.type = .string
      · -- the string of the key is there, so its slot can be swapped
        obtain ⟨key, -, hlive⟩ := h.usable n (LMap.find_mem hf).1
        obtain ⟨w', hup, -⟩ := hs.tidy.updateString (hlive hty).1 str
        exact ⟨0, w', by rw [hs.toOwns.set_swaps hs.wf hstr hf hty, hup]; rfl⟩
      · exact ⟨1, w, hs.toOwns.set_refuses hs.wf hstr hf hty⟩
    | none =>
      have hins : ¬ (c.arg.type = .string ∧ m.typeAt c.key ≠ .nil) :=
        fun hx => hx.2 (LMap.typeAt_absent hf)
      obtain ⟨w', tb', m', heq, -⟩ := (hs.withString str).toOwns.insertTable hs.wf c.key
        (v := { c.tmp with type := .string, v := w.brk }) (show LType.string ≠ .nil by decide)
        (hready hins _ _)
      exact ⟨0, w', by rw [hs.toOwns.set_inserts hs.wf hstr hf, heq]; rfl⟩
  · obtain ⟨w', tb', m', heq, -⟩ := hs.toOwns.insertTable hs.wf c.key
      (v := { c.tmp with type := c.arg.type, v := c.arg.word c.tmp }) c.arg.type_ne_nil
      (hready (fun hx => hc hx.1) _ _)
    rw [World.set_of_plain hc]
    unfold World.setPlain
    rw [heq]
    exact ⟨_, w', rfl⟩

/-! ## §3. The loop. -/

/-- A node of a string value keeps the key. -/
def StringUnder (es : List (LuaValue × LuaValue)) (key : Key) : Prop :=
  ∃ e ∈ es, (∃ str, e.2 = .string str) ∧ ∃ key' ∈ okKey e.1, key'.stored = some key

/-- The entries of a Lua table that take conversion into nothing undefined:
numbers used as keys are in the range of a 64-bit integer, string keys are
shorter than 2^31, and no nested table has the index of a string. -/
structure RegularEntries (es : List (LuaValue × LuaValue)) : Prop where
  numbers : ∀ e ∈ es, LightTable.getKey e.1 ≠ none
  names : ∀ e ∈ es, ∀ str, e.1 = .string str → str.length < 2147483648
  indices : ∀ e ∈ es, ∀ id, e.2 = .table id → ∀ key ∈ okKey e.1, ¬ StringUnder es key

theorem okKey_eq_some : okKey k = some key ↔ LightTable.getKey k = some (.ok key) := by
  unfold okKey
  split
  next key' hk =>
    rw [hk]
    simp
  next hk =>
    constructor
    · intro h
      cases h
    · intro h
      exact absurd h (hk key)

/-- The key of an entry can be read back. -/
theorem RegularEntries.stored (h : RegularEntries es) (he : (k, v) ∈ es)
    (hk : LightTable.getKey k = some (.ok key)) : key.stored ≠ none := by
  cases k with
  | string str =>
    cases hk
    have hshort : (Key.str str).Short := h.names _ he str rfl
    rw [hshort.fits.stored]
    exact Option.some_ne_none _
  | number n =>
    obtain ⟨sz, -, hk⟩ := Option.bind_eq_some_iff.mp hk
    cases hk
    rintro ⟨⟩
  | _ => cases hk

/-- A light table under construction, or the tables that nested calls make:
what was there before stays. -/
structure World.Goes (t : Addr) (w w' : World) : Prop extends
    World.Leaves t w w', World.StringsStay w w'

theorem World.Goes.trans (h₁ : World.Goes t w w') (h₂ : World.Goes t w' w'') : World.Goes t w w'' :=
  ⟨h₁.toLeaves.trans h₂.toLeaves, h₁.toStringsStay.trans h₂.toStringsStay⟩

/-- One setter call of the loop. -/
theorem World.Callable.put (h : w.Callable P t tb m) (ha : w.Apart) (hread : c.key.stored ≠ none)
    (hb : w.bucketsAsked t c < 2147483648) :
    ∃ r w', w.set t c = some (r, w') ∧ World.Goes t w w'
      ∧ ((c.arg.type = .string → ∀ key ∈ c.key.stored, P key) →
        (r = 0 ∨ ¬ P c.key) → ∃ tb' m', w'.Callable P t tb' m') := by
  obtain ⟨r, w', hx⟩ := h.set_returns hread hb
  refine ⟨r, w', hx, ⟨h.toSound.set_leaves hx, h.toSound.stringsStay ha hx⟩, ?_⟩
  intro hstr hr
  apply h.set ha hread hstr _ hx
  intro hc n hn hty
  -- the call would write a union of its type over a string
  rcases hr with hr | hr
  · have hmis := h.toSound.mismatch hn (fun heq => hc (heq.symm.trans hty))
    exact (h.toSound.set_nonzero_iff hx).mpr hmis hr
  · obtain ⟨hmem, hkey⟩ := LMap.find_mem hn
    obtain ⟨key, hkey', hlive⟩ := h.usable n hmem
    rw [hkey] at hkey'
    cases hkey'
    exact hr (hlive hty).2

/-- `_set_value` returns or raises an error. -/
theorem World.Callable.setValue (h : w.Callable P t tb m) (ha : w.Apart) (hread : key.stored ≠ none)
    (hb : ∀ a ∈ v.arg, w.bucketsAsked t ⟨key, a, tmp⟩ < 2147483648)
    (hstr : ∀ str, v = .string str → ∀ key' ∈ key.stored, P key') :
    ∃ o w', w.setValue t key v tmp = some (o, w') ∧ World.Goes t w w'
      ∧ ∀ u, o = .ok u → ∃ tb' m', w'.Callable P t tb' m' := by
  cases harg : v.arg with
  | none =>
    -- a value that `_set_value` does not take
    refine ⟨.error s!"Unsupported value type {v.typename}", w, ?_,
      ⟨World.Leaves.refl t w, World.StringsStay.refl h.toSound.tidy ha⟩, ?_⟩
    · unfold World.setValue
      rw [harg]
    · rintro u ⟨⟩
  | some a =>
    obtain ⟨r, w', hset, hgo, hcallable⟩ := h.put (c := ⟨key, a, tmp⟩) ha hread (hb a harg)
    have hstring : a.type = .string → ∀ key' ∈ key.stored, P key' := by
      intro hty
      obtain ⟨str, rfl⟩ := Arg.eq_string hty
      cases v with
      | string str' => exact hstr str' rfl
      | _ => cases harg
    refine ⟨_, w', by rw [World.setValue_arg harg, hset]; rfl, hgo, ?_⟩
    intro u hu
    refine hcallable hstring (Or.inl ?_)
    by_contra hr
    rw [if_pos hr] at hu
    cases hu

variable {subL : Addr → World → Option (Outcome Addr × World)} {subAlong : Addr → World → Prop} {d : Nat}

/-- The loop returns or raises an error, when the calls on the tables that it
meets do. -/
theorem convertEntries_returns (hes : heap id = some es) (hreg : RegularEntries es)
    (hsub : ∀ id', heap.Holds id id' → ∀ w, w.Tidy → w.Apart → subAlong id' w →
      ∃ o w', subL id' w = some (o, w') ∧ World.Goes w.brk w w')
    (rest : List (LuaValue × LuaValue)) :
    ∀ (w : World) (tb : Table) (m : LMap), rest <:+ es → w.Callable (StringUnder es) t tb m → w.Apart →
      t < w.brk → EntriesAlong tmp (World.BucketsFit tmp) subL subAlong d t rest w →
      ∃ o w', convertEntries tmp subL t rest w = some (o, w') ∧ World.Goes t w w' := by
  induction rest with
  | nil =>
    intro w tb m _ h ha _ _
    exact ⟨_, w, rfl, World.Leaves.refl t w, World.StringsStay.refl h.toSound.tidy ha⟩
  | cons e rest ih =>
    intro w tb m hsuffix h ha ht halong
    obtain ⟨k, v⟩ := e
    have hmem : (k, v) ∈ es := hsuffix.subset List.mem_cons_self
    have hrest : rest <:+ es := (List.suffix_cons _ rest).trans hsuffix
    obtain ⟨gk, hk⟩ := Option.ne_none_iff_exists'.mp (hreg.numbers (k, v) hmem)
    cases gk with
    | error err =>
      exact ⟨_, w, convertEntries_badKey hk, World.Leaves.refl t w,
        World.StringsStay.refl h.toSound.tidy ha⟩
    | ok key =>
      have hread := hreg.stored hmem hk
      have hok : okKey k = some key := okKey_eq_some.mpr hk
      by_cases hv : ∃ id', v = .table id'
      · -- a nested call, and `set_ud` of the table that it made
        obtain ⟨id', rfl⟩ := hv
        obtain ⟨o, w₁, hcall, hgo⟩ := hsub id' ⟨es, k, hes, hmem⟩ w h.toSound.tidy ha
          (halong.2.1 id' (nestedTable_table hk))
        have hgo₁ : World.Goes t w w₁ :=
          { hgo with tables := fun a ha _ => hgo.tables a ha (Nat.ne_of_lt ha) }
        rw [convertEntries_table hk, hcall, Option.bind_some]
        cases o with
        | error err => exact ⟨_, w₁, rfl, hgo₁⟩
        | ok s =>
          have hs₁ := h.toSound.left hgo.toLeaves hgo.tidy ht (Nat.ne_of_lt ht)
          have h₁ := h.keeps hgo.toStringsStay hs₁
          have hb : w₁.bucketsAsked t ⟨key, .ud s, tmp⟩ < 2147483648 :=
            halong.1.ud hok (hs₁.toOwns.current.trans h.toSound.toOwns.current.symm) s
          obtain ⟨r, w₂, hset, hgo₂, hcallable⟩ := h₁.put (c := ⟨key, .ud s, tmp⟩) hgo.apart hread hb
          have hset : w₁.setUd t key tmp s = some (r, w₂) := hset
          obtain ⟨tb₂, m₂, h₂⟩ := hcallable (fun hty => by cases hty)
            (Or.inr (hreg.indices _ hmem id' rfl key hok))
          have hbrk : t < w₂.brk := Nat.lt_of_lt_of_le ht (Nat.le_trans hgo.brk hgo₂.brk)
          obtain ⟨o, w', hloop, hgo'⟩ := ih w₂ tb₂ m₂ hrest h₂ hgo₂.apart hbrk
            ((entriesAlong_table hk hcall hset).mp halong).2.2
          refine ⟨o, w', ?_, (hgo₁.trans hgo₂).trans hgo'⟩
          simp only [hset, Option.bind_some]
          exact hloop
      · have hv : ∀ id', v ≠ .table id' := fun id' hid => hv ⟨id', hid⟩
        rw [convertEntries_scalar hk hv]
        have hb : ∀ a ∈ v.arg, w.bucketsAsked t ⟨key, a, tmp⟩ < 2147483648 := by
          intro a harg
          refine halong.1 key hok a ?_
          cases v with
          | table id' => exact absurd rfl (hv id')
          | _ => exact harg
        obtain ⟨o, w₁, hval, hgo, hcallable⟩ := h.setValue (v := v) ha hread hb
          (fun str hstr key' hkey' => ⟨(k, v), hmem, ⟨str, hstr⟩, key, hok, hkey'⟩)
        rw [hval, Option.bind_some]
        cases o with
        | error err => exact ⟨_, w₁, rfl, hgo⟩
        | ok u =>
          obtain ⟨tb₁, m₁, h₁⟩ := hcallable u rfl
          obtain ⟨o, w', hloop, hgo'⟩ := ih w₁ tb₁ m₁ hrest h₁ hgo.apart
            (Nat.lt_of_lt_of_le ht hgo.brk) ((entriesAlong_scalar hk hv hval).mp halong).2
          exact ⟨o, w', hloop, hgo.trans hgo'⟩

/-! ## §4. The recursion. -/

/-- A call returns or raises an error when the calls on the tables in its table
do. -/
theorem doConvert_returns_succ {n : Nat} (hes : heap id = some es) (hreg : RegularEntries es)
    (hsub : ∀ id', heap.Holds id id' → ∀ w, w.Tidy → w.Apart →
      ConvertAlong tmp heap (World.BucketsFit tmp) n (d + 1) id' w →
      ∃ o w', doConvert tmp heap n id' w = some (o, w') ∧ World.Goes w.brk w w')
    (hw : w.Tidy) (ha : w.Apart) (halong : ConvertAlong tmp heap (World.BucketsFit tmp) (n + 1) d id w) :
    ∃ o w', doConvert tmp heap (n + 1) id w = some (o, w') ∧ World.Goes w.brk w w' := by
  obtain ⟨w₀, -, hnew, -, -, -, hls, hsl, -⟩ := w.newTable_spec
  obtain ⟨-, hl₀, hlt, tb, hs₀⟩ := World.newTable_leaves hw hnew
  have hgo₀ : World.Goes w.brk w w₀ :=
    ⟨hl₀, hs₀.tidy, ha.newTable hnew, fun p hp => hp.congr hls hsl⟩
  -- a new table has no nodes
  have hcallable : w₀.Callable (StringUnder es) w.brk tb (LMap.new 29) := by
    refine ⟨hs₀, fun n hn => ?_⟩
    rw [LMap.new_entries] at hn
    exact absurd hn (by simp)
  obtain ⟨o, w', hrun, hgo⟩ := convertEntries_returns hes hreg hsub es w₀ tb _ (List.suffix_refl es)
    hcallable hgo₀.apart hlt (halong es hes (w.brk, w₀) hnew)
  rw [doConvert_succ hes hnew, hrun, Option.bind_some]
  cases o with
  | error err => exact ⟨_, w', rfl, hgo₀.trans hgo⟩
  | ok u => exact ⟨_, w', rfl, hgo₀.trans hgo⟩

/-- A Lua table from which finitely many tables are reached, none that contains
itself, and all with entries that conversion can take. -/
structure LuaHeap.Regular (heap : LuaHeap) (id : Addr) (L : Finset Addr) : Prop where
  finite : ∀ b, ReflTransGen heap.Holds id b → b ∈ L
  acyclic : ∀ b, ReflTransGen heap.Holds id b → ¬ TransGen heap.Holds b b
  tables : ∀ b, ReflTransGen heap.Holds id b → ∃ es, heap b = some es ∧ RegularEntries es

/-- `do_convert` returns a light table or raises an error, and nests no more
calls than there are tables to reach. -/
theorem doConvert_returns {L : Finset Addr} (hlawful : heap.Lawful) (hreg : heap.Regular id L)
    (hw : w.Tidy) (ha : w.Apart)
    (halong : ConvertAlong tmp heap (World.BucketsFit tmp) L.card 0 id w)
    (below : List LuaValue) (p : Nat) :
    ∃ o st w', LuaStack.doConvert tmp heap L.card ⟨.table id :: below, p⟩ w = .ok (o, st, w')
      ∧ ∀ root, o = .ok root → ∃ tb m, w'.Owns root tb m := by
  have hall : ReflTransGen heap.Holds id id → ∀ d w, w.Tidy → w.Apart →
      ConvertAlong tmp heap (World.BucketsFit tmp) L.card d id w →
      ∃ o w', doConvert tmp heap L.card id w = some (o, w') ∧ World.Goes w.brk w w' := by
    refine ends_of_acyclic (G := heap.Holds) (P := fun n a => ReflTransGen heap.Holds id a → ∀ d w,
      w.Tidy → w.Apart → ConvertAlong tmp heap (World.BucketsFit tmp) n d a w →
      ∃ o w', doConvert tmp heap n a w = some (o, w') ∧ World.Goes w.brk w w') ?_ L.card id L
      (Nat.le_refl _) hreg.finite hreg.acyclic
    intro n a hsub hreach d w hw ha halong
    obtain ⟨es, hes, hentries⟩ := hreg.tables a hreach
    exact doConvert_returns_succ hes hentries
      (fun id' hid' w hw ha h => hsub id' hid' (hreach.tail hid') (d + 1) w hw ha h) hw ha halong
  obtain ⟨o, w', hrun, -⟩ := hall .refl 0 w hw ha halong
  -- the stack program ends as the function on values does
  have hends := (LuaStack.doConvert_refines hlawful tmp L.card id below p w).ends
  rw [hrun] at hends
  obtain ⟨⟨o', st, w₁⟩, hx, heq⟩ := Option.map_eq_some_iff.mp hends
  cases heq
  refine ⟨o', st, w₁, Result.toOption_eq_some.mp hx, ?_⟩
  rintro root rfl
  obtain ⟨⟨tb, m, hs⟩, -, hroot⟩ := doConvert_leaves L.card id w _ w₁ hw hrun
  rw [hroot root rfl]
  exact ⟨tb, m, hs.toOwns⟩

/-- Entries with short string keys and no string value. -/
theorem RegularEntries.of_names (hname : ∀ e ∈ es, ∃ str, e.1 = .string str ∧ str.length < 2147483648)
    (hval : ∀ e ∈ es, ∀ str, e.2 ≠ .string str) : RegularEntries es where
  numbers := by
    intro e he hk
    obtain ⟨str, hstr, -⟩ := hname e he
    rw [hstr] at hk
    cases hk
  names := by
    intro e he str hstr
    obtain ⟨str', hstr', hlt⟩ := hname e he
    rw [hstr] at hstr'
    cases hstr'
    exact hlt
  indices := by
    rintro _ _ _ _ _ _ ⟨e, he, ⟨str, hstr⟩, -⟩
    exact hval e he str hstr

theorem sharedHeap_regular : sharedHeap.Regular 1 {1, 2} where
  finite := fun _ h => sharedHeap_finite h
  acyclic := fun b _ => sharedHeap_acyclic b
  tables := by
    intro b hb
    rcases Finset.mem_insert.mp (sharedHeap_finite hb) with rfl | hb
    · refine ⟨_, rfl, .of_names ?_ ?_⟩
      · simp
      · simp
    · rw [Finset.mem_singleton.mp hb]
      refine ⟨_, rfl, .of_names ?_ ?_⟩
      · simp
      · simp

/-- The theorem at a table with one table under two keys. -/
theorem doConvert_returns_shared :
    ∃ o st w', LuaStack.doConvert .blank sharedHeap ({1, 2} : Finset Addr).card ⟨[.table 1], 1⟩ .empty
        = .ok (o, st, w')
      ∧ ∀ root, o = .ok root → ∃ tb m, w'.Owns root tb m :=
  doConvert_returns sharedHeap_lawful sharedHeap_regular World.empty_tidy World.empty_apart
    (by decide +kernel) [] 1

/-- A table that contains itself. -/
def selfHeap : LuaHeap := .ofList [(1, [(.string [97], .table 1)])]

/-- On a table that contains itself no number of nested calls is enough. -/
theorem convert_self_never_ends :
    selfHeap.Lawful ∧ selfHeap 1 = some [(.string [97], .table 1)] ∧ (∀ id, id ≠ 1 → selfHeap id = none)
      ∧ ∀ tmp fuel below w, ¬ (LuaStack.convert tmp selfHeap fuel (.table 1 :: below) w).Ends := by
  have hes : selfHeap 1 = some [(.string [97], .table 1)] := by decide
  refine ⟨LuaHeap.ofList_lawful (by decide), hes, ?_, ?_⟩
  · intro id hid
    unfold selfHeap LuaHeap.ofList
    simp [Ne.symm hid]
  · intro tmp fuel below w
    have hout : ∀ fuel below p w,
        LuaStack.doConvert tmp selfHeap fuel ⟨.table 1 :: below, p⟩ w = .out := by
      intro fuel
      induction fuel with
      | zero => intro below p w; rfl
      | succ fuel ih =>
          intro below p w
          obtain ⟨w₀, tb, hnew, -⟩ := w.newTable_spec
          have hkey : getKey (.string [97]) = some (.ok (.str [97])) := rfl
          rw [LuaStack.doConvert_succ hes hnew, LuaStack.convertLoop_table hes rfl hkey, ih]
          rfl
    have hconvert : LuaStack.convert tmp selfHeap fuel (.table 1 :: below) w = .out := by
      unfold LuaStack.convert LuaStack.enter
      rw [hout]
      rfl
    intro hends
    exact hends hconvert

end LightTable
