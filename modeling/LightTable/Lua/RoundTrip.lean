/-
  LightTable.Lua.RoundTrip
  ────────────────────────
  Converting a Lua table, and iterating over the result.

  A converted table represents a store, so `pairs` over it is a loop over that
  store (`World.Rep.pairsAll`), and the store is the Lua table entry by entry.
  The loop gives the entries back in an order of its own, a nested table as a
  light table over which `pairs` gives that table back
  (`convert_givesBack`).  Two things do not survive: negative zero as a key
  comes back as zero, and a table that is entered twice as two light tables.
-/
import LightTable.Lua.Loops

namespace LightTable

open Fuel Relation

variable {heap : LuaHeap} {t u id : Addr} {es rest : List (LuaValue × LuaValue)} {w w' : World}
  {tb tb' : Table} {m m' : LMap} {tmp : Value} {s s' : Store} {k v : LuaValue} {key : Key} {a : Arg}
  {nodes : List Addr}

/-! ## §1. What comes back. -/

/-- A key as it comes back. -/
def LuaValue.keyBack (k : LuaValue) : LuaValue :=
  if k = .number 9223372036854775808 then .number 0 else k

/-- A value as it comes back, when a nested table was made the light table
`sub`. -/
def LuaValue.valueBack (sub : Addr) : LuaValue → LuaValue
  | .table _ => .lightuserdata sub
  | v => v

/-- Iterating over the light table `t` gives the Lua table `id` back: when the
snapshot has room `pairs` yields every entry once and changes nothing, and
this is so for the nested tables. -/
inductive World.GivesBack (w : World) (heap : LuaHeap) : Addr → Addr → Prop where
  | table {t id : Addr} {es : List (LuaValue × LuaValue)} (sub : LuaValue × LuaValue → Addr)
      (hes : heap id = some es)
      (hpairs : w.Room t es.length → ∀ tmp, ∃ ps, w.pairsAll t tmp = some (.ok ps, w)
        ∧ ps.Perm (es.map (fun e => (e.1.keyBack, e.2.valueBack (sub e)))))
      (hsub : ∀ e ∈ es, ∀ id', e.2 = .table id' → World.GivesBack w heap (sub e) id') :
      World.GivesBack w heap t id

/-- The Lua key of the key that an entry is stored under. -/
theorem LuaValue.IsKey.luaName (h : k.IsKey key) : key.luaName = k.keyBack := by
  unfold LuaValue.keyBack
  cases h with
  | string str hlt => rfl
  | number i hlt =>
      -- no double of a natural number is negative zero
      have hne : Binary64.ofNat i ≠ 9223372036854775808 := by
        intro heq
        have hback := Binary64.truncate_ofNat (n := i) (by omega)
        rw [heq, show Binary64.truncate 9223372036854775808 = some 0 by decide,
          Option.some.injEq] at hback
        rw [show i = 0 by omega] at heq
        exact absurd heq (by decide)
      rw [if_neg (fun heq => hne (LuaValue.number.inj heq))]
      show LuaValue.number (Binary64.ofNat (UInt64.ofNat i).toNat) = _
      rw [toNat_ofNat_small hlt]
  | negativeZero => rfl

/-- A plain value comes back as it is. -/
theorem LuaValue.luaValue_arg (h : v.arg = some a) (sub : Addr) : a.luaValue = v.valueBack sub := by
  cases v with
  | number n => cases h; rfl
  | string str => cases h; rfl
  | lightuserdata p => cases h; rfl
  | boolean b =>
    cases h
    cases b <;> rfl
  | nil => cases h
  | table x => cases h
  | function => cases h
  | userdata => cases h
  | thread => cases h

/-! ## §2. The store of a table. -/

/-- A word holds one value only. -/
theorem World.Stored.unique {b : Arg} {tv : LType × Word} (ha : w.Stored a tv) (hb : w.Stored b tv) :
    a = b := by
  have hta : tv.1 = a.type := ha.type
  have htb : tv.1 = b.type := hb.type
  rw [hta] at htb
  cases a with
  | number n =>
    cases b with
    | number n' => exact congrArg Arg.number (congrArg Prod.snd (Eq.trans (Eq.symm ha) hb))
    | _ => cases htb
  | ud x =>
    cases b with
    | ud x' => exact congrArg Arg.ud (congrArg Prod.snd (Eq.trans (Eq.symm ha) hb))
    | _ => cases htb
  | boolean x =>
    cases b with
    | boolean x' => exact congrArg Arg.boolean (ha.2.symm.trans hb.2)
    | _ => cases htb
  | string str =>
    cases b with
    | string str' =>
      obtain ⟨-, slot, hls, hsl⟩ := ha
      obtain ⟨-, slot', hls', hsl'⟩ := hb
      rw [hls] at hls'
      cases hls'
      rw [hsl] at hsl'
      -- slots of the same bytes
      have hbuf : str ++ [0] = str' ++ [0] := congrArg StringSlot.buf (Option.some.inj hsl')
      rw [List.append_cancel_right hbuf]
    | _ => cases htb

/-- A table represents one store only. -/
theorem World.Rep.unique (h : w.Rep t s tb m) (h' : w.Rep t s' tb' m') : s = s' := by
  have hm : m' = m := Option.some.inj (h'.toOwns.current.symm.trans h.toOwns.current)
  subst hm
  funext key
  cases hs : s key with
  | none =>
    cases hs' : s' key with
    | none => rfl
    | some b =>
      obtain ⟨v, hv, -⟩ := h'.view_some hs'
      rw [h.absent key hs] at hv
      cases hv
  | some a =>
    obtain ⟨v, hv, hst⟩ := h.view_some hs
    cases hs' : s' key with
    | none =>
      rw [h'.absent key hs'] at hv
      cases hv
    | some b =>
      obtain ⟨v', hv', hst'⟩ := h'.view_some hs'
      rw [hv, Option.some.injEq] at hv'
      rw [← hv'] at hst'
      rw [hst.unique hst']

theorem World.Rep.of_has {o : Option Arg} (h : w.Rep t s tb m) (hhas : w.Has t key o) : s key = o := by
  obtain ⟨s', tb', m', hrep, rfl⟩ := hhas
  rw [h.unique hrep]

/-! ## §3. From the tree to the loops. -/

/-- The table shows an entry: a plain value, or a table that gives the nested
one back. -/
inductive World.ShowsEntry (w : World) (heap : LuaHeap) (t : Addr) : LuaValue × LuaValue → Prop where
  | scalar {k v : LuaValue} {key : Key} {a : Arg} (hk : k.IsKey key) (hv : v.arg = some a)
      (hhas : w.Has t key (some a)) : World.ShowsEntry w heap t (k, v)
  | table {k : LuaValue} {key : Key} {id sub : Addr} (hk : k.IsKey key)
      (hhas : w.Has t key (some (.ud sub))) (hsub : w.GivesBack heap sub id) :
      World.ShowsEntry w heap t (k, .table id)

/-- The key of an entry. -/
def entryKey (e : LuaValue × LuaValue) : Key := (okKey e.1).getD (.num 0)

theorem LuaValue.IsKey.entryKey (h : k.IsKey key) (v : LuaValue) : LightTable.entryKey (k, v) = key := by
  unfold LightTable.entryKey
  rw [h.okKey]
  rfl

/-- The light table that was stored for an entry. -/
def Store.subTable (s : Store) (e : LuaValue × LuaValue) : Addr :=
  match s (entryKey e) with
  | some (.ud sub) => sub
  | _ => 0

theorem World.ShowsEntry.isKey {e : LuaValue × LuaValue} (h : w.ShowsEntry heap t e) :
    e.1.IsKey (entryKey e) := by
  cases h with
  | scalar hk hv hhas => rwa [hk.entryKey]
  | table hk hhas hsub => rwa [hk.entryKey]

/-- What a table that shows an entry holds for it. -/
theorem World.Rep.of_shows (h : w.Rep t s tb m) {e : LuaValue × LuaValue}
    (he : w.ShowsEntry heap t e) :
    s.luaEntry (entryKey e) = (e.1.keyBack, e.2.valueBack (s.subTable e))
      ∧ (∀ id', e.2 = .table id' → w.GivesBack heap (s.subTable e) id')
      ∧ ∃ a, s (entryKey e) = some a ∧ ∀ str, a = .string str → e.2 = .string str := by
  unfold Store.luaEntry
  rw [he.isKey.luaName]
  cases he with
  | @scalar k v key a hk hv hhas =>
    have hs := h.of_has hhas
    refine ⟨?_, ?_, a, by rw [hk.entryKey, hs], ?_⟩
    · rw [hk.entryKey, Store.luaValue_some hs, LuaValue.luaValue_arg hv]
    · intro id' hid
      exact absurd hid (LuaValue.not_table_of_arg hv id')
    · rintro str rfl
      cases v with
      | string str' => cases hv; rfl
      | _ => cases hv
  | @table k key id sub hk hhas hsub =>
    have hs := h.of_has hhas
    have hst : s.subTable (k, .table id) = sub := by
      unfold Store.subTable
      rw [hk.entryKey, hs]
    refine ⟨?_, ?_, .ud sub, by rw [hk.entryKey, hs], ?_⟩
    · rw [hk.entryKey, Store.luaValue_some hs, hst]
      rfl
    · rintro id' hid
      cases hid
      rw [hst]
      exact hsub
    · rintro str hstr
      cases hstr

/-- The strings of the entries are shorter than 2^31 bytes. -/
def ShortEntries (es : List (LuaValue × LuaValue)) : Prop :=
  ∀ e ∈ es, ∀ str, e.2 = .string str → str.length < 2147483648

/-- Distinct Lua keys stand for distinct keys. -/
theorem entryKeys_nodup (hkeys : ∀ e ∈ es, e.1.IsKey (entryKey e))
    (hdistinct : es.Pairwise (fun e e' => rawequal e.1 e'.1 = false)) :
    (es.map entryKey).Nodup := by
  refine List.pairwise_map.mpr (hdistinct.imp_of_mem ?_)
  intro e e' he he' hne heq
  have hk' := hkeys e' he'
  rw [← heq] at hk'
  rw [(hkeys e he).rawequal hk'] at hne
  cases hne

/-- A table that shows the entries and nothing else gives them back. -/
theorem World.givesBack_of_shows (hw : w.Tidy) (hes : heap id = some es)
    (hdistinct : es.Pairwise (fun e e' => rawequal e.1 e'.1 = false)) (hshort : ShortEntries es)
    (hall : ∀ e ∈ es, w.ShowsEntry heap t e)
    (hother : ∀ key, (∀ e ∈ es, ¬ e.1.IsKey key) → w.Has t key none) : w.GivesBack heap t id := by
  have hkeys : ∀ e ∈ es, e.1.IsKey (entryKey e) := fun e he => (hall e he).isKey
  obtain ⟨s, tb, m, hrep⟩ : ∃ s tb m, w.Rep t s tb m := by
    cases es with
    | nil =>
      obtain ⟨s, tb, m, hrep, -⟩ := hother (.num 0) (by simp)
      exact ⟨s, tb, m, hrep⟩
    | cons e rest =>
      cases hall e List.mem_cons_self with
      | scalar hk hv hhas =>
        obtain ⟨s, tb, m, hrep, -⟩ := hhas
        exact ⟨s, tb, m, hrep⟩
      | table hk hhas hsub =>
        obtain ⟨s, tb, m, hrep, -⟩ := hhas
        exact ⟨s, tb, m, hrep⟩
  have hshows := fun e he => hrep.of_shows (hall e he)
  -- the keys of the store are those of the entries
  have hmem : ∀ key, key ∈ es.map entryKey ↔ s key ≠ none := by
    intro key
    constructor
    · intro hkey
      obtain ⟨e, he, rfl⟩ := List.mem_map.mp hkey
      obtain ⟨-, -, a, ha, -⟩ := hshows e he
      rw [ha]
      exact Option.some_ne_none a
    · intro hne
      by_contra hnot
      refine hne (hrep.of_has (hother key (fun e he hek => hnot ?_)))
      exact List.mem_map.mpr ⟨e, he, (hek.unique (hkeys e he)).symm⟩
  have hsshort : s.Short := by
    intro key a ha
    have hkey := (hmem key).mpr (by rw [ha]; exact Option.some_ne_none a)
    obtain ⟨e, he, rfl⟩ := List.mem_map.mp hkey
    obtain ⟨-, -, b, hb, hstr⟩ := hshows e he
    rw [ha] at hb
    cases hb
    cases a with
    | string str => exact hshort e he str (hstr str rfl)
    | _ => trivial
  refine .table s.subTable hes ?_ (fun e he => (hshows e he).2.1)
  intro hroom tmp
  obtain ⟨ps, hrun, hperm⟩ := hrep.pairsAll hw hsshort (entryKeys_nodup hkeys hdistinct) hmem
    (by rwa [List.length_map]) tmp
  refine ⟨ps, hrun, ?_⟩
  rw [List.map_map] at hperm
  rw [← List.map_congr_left (fun e he => (hshows e he).1)]
  exact hperm

/-- No string of the tables that are reached is longer than an `int` counts. -/
def LuaHeap.ShortStrings (heap : LuaHeap) (id : Addr) : Prop :=
  ∀ b, ReflTransGen heap.Holds id b → ∀ es, heap b = some es → ShortEntries es

/-- A tree of light tables shows the entries of its root, and gives the nested
tables back. -/
theorem Mirrors.shows (hlawful : heap.Lawful) (hw : w.Tidy) (h : Mirrors heap w.Has t es nodes) :
    (∀ e ∈ es, ∀ id', e.2 = .table id' → heap.ShortStrings id') →
      ∀ e ∈ es, w.ShowsEntry heap t e := by
  induction h with
  | nil t => exact fun _ e he => absurd he (by simp)
  | scalar hk hv hshow hrest ih =>
    intro hshort e he
    rcases List.mem_cons.mp he with rfl | he
    · exact .scalar hk hv hshow
    · exact ih (fun e' he' => hshort e' (List.mem_cons_of_mem _ he')) e he
  | @table t sub id k key es rest below nodes hk hshow hes hsub hother hrest ihsub ihrest =>
    intro hshort e he
    rcases List.mem_cons.mp he with rfl | he
    · have hsid := hshort (k, .table id) List.mem_cons_self id rfl
      have hnested := ihsub (fun e' he' id' hid' b hb =>
        hsid b (.head ⟨es, e'.1, hes, by rw [← hid']; exact he'⟩ hb))
      exact .table hk hshow (World.givesBack_of_shows hw hes (hlawful id es hes).2
        (hsid id .refl es hes) hnested hother)
    · exact ihrest (fun e' he' => hshort e' (List.mem_cons_of_mem _ he')) e he

/-! ## §4. The round trip. -/

theorem doConvert_givesBack {L : Finset Addr} (hlawful : heap.Lawful) (hc : heap.Convertible id L)
    (hshort : heap.ShortStrings id) (hw : w.Tidy)
    (halong : ConvertAlong tmp heap (World.BucketsFit tmp) L.card 0 id w) :
    ∃ root w', doConvert tmp heap L.card id w = some (.ok root, w') ∧ w'.GivesBack heap root id := by
  obtain ⟨⟨root, w', nodes, hrun, hconv⟩, -⟩ := doConvert_converted ofNewKeys_true hlawful hc hw halong
  obtain ⟨es, hes, hmirrors, hother⟩ := hconv.conversion
  have hshows := hmirrors.shows hlawful hconv.tidy
    (fun e he id' hid' b hb => hshort b (.head ⟨es, e.1, hes, by rw [← hid']; exact he⟩ hb))
  exact ⟨root, w', hrun, World.givesBack_of_shows hconv.tidy hes (hlawful id es hes).2
    (hshort id .refl es hes) hshows hother⟩

/-- Whatever finite, acyclic Lua table with supported keys and values is passed
to `lighttable.convert`, iterating over what it pushes gives the table back at
every level. -/
theorem convert_givesBack {L : Finset Addr} (hlawful : heap.Lawful) (hc : heap.Convertible id L)
    (hshort : heap.ShortStrings id) (hw : w.Tidy)
    (halong : ConvertAlong tmp heap (World.BucketsFit tmp) L.card 0 id w) (below : List LuaValue) :
    ∃ root st w', LuaStack.convert tmp heap L.card (.table id :: below) w
        = .ok (.ok (.lightuserdata root), st, w')
      ∧ st.values = .lightuserdata root :: .table id :: below ∧ w'.GivesBack heap root id := by
  obtain ⟨root, w', hrun, hback⟩ := doConvert_givesBack hlawful hc hshort hw halong
  -- the stack program gives what the function on values gives
  obtain ⟨hends, hvals⟩ := LuaStack.doConvert_refines hlawful tmp L.card id below (below.length + 1) w
  rw [hrun] at hends
  obtain ⟨⟨o, st, w₁⟩, hx, ho⟩ := Option.map_eq_some_iff.mp hends
  cases ho
  have hx := Result.toOption_eq_some.mp hx
  refine ⟨root, st.push (.lightuserdata root), w₁, ?_, ?_, hback⟩
  · unfold LuaStack.convert
    have hx : LuaStack.doConvert tmp heap L.card (.enter (.table id :: below)) w
        = .ok (.ok root, st, w₁) := hx
    rw [hx]
    rfl
  · unfold LuaStack.push
    rw [hvals root st w₁ hx]

theorem sharedHeap_shortStrings : sharedHeap.ShortStrings 1 := by
  intro b hb es hes e he str hstr
  rcases Finset.mem_insert.mp (sharedHeap_finite hb) with rfl | hb
  · cases hes
    simp only [List.mem_cons, List.not_mem_nil, or_false] at he
    rcases he with rfl | rfl <;> cases hstr
  · rw [Finset.mem_singleton.mp hb] at hes
    cases hes
    rw [List.mem_singleton.mp he] at hstr
    cases hstr

/-- A Lua table that holds another one under two keys. -/
theorem convert_givesBack_shared :
    ∃ root st w', LuaStack.convert .blank sharedHeap ({1, 2} : Finset Addr).card [.table 1] .empty
        = .ok (.ok (.lightuserdata root), st, w')
      ∧ st.values = [.lightuserdata root, .table 1] ∧ w'.GivesBack sharedHeap root 1 :=
  convert_givesBack sharedHeap_lawful sharedHeap_convertible sharedHeap_shortStrings
    World.empty_tidy (by decide +kernel) []

end LightTable
