/-
  LightTable.Lua.Pairs
  ────────────────────
  What a `pairs` loop with an empty body yields.

  `_pairs` takes a snapshot of the keys and `_next_map` reads one of them each
  call.  A read changes no other read, so the loop comes to its end exactly
  when every key of the snapshot can be read, and then it has yielded each of
  them with its value (`World.Sound.pairsAll_iff`).
-/
import LightTable.Lua.Traversal

namespace LightTable

variable {w w' : World} {t : Addr} {tb : Table} {m : LMap}

/-! ## §1. Names. -/

/-- The Lua key that a key is pushed as. -/
def Key.luaName : Key → LuaValue
  | .str s => .string s
  | .num idx => .number (Binary64.ofNat idx.toNat)

/-- The Lua key that the record of a node is pushed as. -/
theorem Node.Wf.luaName {n : Node} (hn : n.Wf) {key : Key} (h : n.storedKey = some key) :
    n.record.luaName = some key.luaName := by
  unfold TableKey.luaName
  rw [hn.toKey_record, h]
  cases key with
  | str name => rfl
  | num idx =>
    have hkind := hn.kind
    unfold Node.storedKey at h
    cases hs : n.strkey with
    | some p =>
      -- a string key is no index
      rw [hs] at h
      obtain ⟨name, -, hname⟩ := Option.map_eq_some_iff.mp h
      cases hname
    | none =>
      rw [hs] at h hkind
      have hrec : n.record.szIdx = asSize n.numkey := by
        unfold Node.record
        rw [if_neg (by simp [hkind])]
      have hidx : idx.toNat = asSize n.numkey := by
        rw [← Key.num.inj (Option.some.inj h), UInt64.toNat_ofNat']
        exact Nat.mod_eq_of_lt (asSize_lt _)
      show some (LuaValue.number (Binary64.ofNat n.record.szIdx)) = some (.number _)
      rw [hrec, hidx]

theorem luaName_records {l : List Node} (hl : ∀ n ∈ l, n.Wf) {keys : List Key}
    (hkeys : l.map Node.storedKey = keys.map some) :
    (l.map Node.record).map TableKey.toKey = keys.map some
      ∧ (l.map Node.record).map TableKey.luaName = keys.map (fun k => some k.luaName) := by
  refine ⟨(toKey_records hl).trans hkeys, ?_⟩
  have hnames : (l.map Node.record).map TableKey.luaName
      = (l.map Node.storedKey).map (Option.map Key.luaName) := by
    rw [List.map_map, List.map_map]
    refine List.map_congr_left (fun n hn => ?_)
    have hmem : n.storedKey ∈ keys.map some := by
      rw [← hkeys]
      exact List.mem_map_of_mem hn
    obtain ⟨key, -, hkey⟩ := List.mem_map.mp hmem
    rw [Function.comp_apply, Function.comp_apply, ← hkey, (hl n hn).luaName hkey.symm]
    rfl
  rw [hnames, hkeys, List.map_map]
  rfl

/-! ## §2. Reads. -/

theorem World.nodeReads_of_valueOf (h : ∀ type v, w'.valueOf type v = w.valueOf type v)
    (o : Option Node) (v : LuaValue) : w'.nodeReads o v ↔ w.nodeReads o v := by
  cases o with
  | none => exact Iff.rfl
  | some n =>
    show w'.valueOf n.v.type n.v.v = some v ↔ w.valueOf n.v.type n.v.v = some v
    rw [h]

/-- A read gives a value, and every other read gives what it gave before. -/
theorem World.Sound.read (h : w.Sound t tb m) {key : Key} {tmp : Value} {o : Outcome LuaValue}
    (hx : ((w.getType t key tmp).bind fun r => r.2.getValue r.1.1 r.1.2) = some (o, w')) :
    w'.Sound t tb m ∧ (∀ o v, w'.nodeReads o v ↔ w.nodeReads o v)
      ∧ ∃ v, o = .ok v ∧ w.nodeReads (m.find key) v := by
  have hval := hx
  rw [h.toOwns.getType h.wf, Option.bind_some] at hval
  obtain ⟨h', hsame, v, rfl⟩ := h.getValue hval
  exact ⟨h', World.nodeReads_of_valueOf hsame, v, rfl, (h.reads_iff key tmp v).mp ⟨w', hx⟩⟩

/-! ## §3. The loop. -/

/-- Where every key of the snapshot can be read, as long as `I` holds, the loop
yields the keys in order. -/
theorem World.pairsLoop_of_reads {I : World → Prop} {value : Key → LuaValue} {tmp : Value}
    (keys : List Key)
    (hread : ∀ w, I w → ∀ key ∈ keys, ∃ w', ((w.getType t key tmp).bind fun r =>
      r.2.getValue r.1.1 r.1.2) = some (.ok (value key), w') ∧ I w') :
    ∀ (p : Nat) (st : PairsState) {w : World} {control : LuaValue} {rest : List TableKey}, I w →
      control.IsControl → st.position = p → st.mapSize = st.keys.length → st.keys.drop p = rest →
      rest.map TableKey.toKey = keys.map some →
      rest.map TableKey.luaName = keys.map (fun k => some k.luaName) →
      ∀ fuel, keys.length < fuel → ∃ w', World.pairsLoop tmp fuel w t st control
        = some (.ok (keys.map fun k => (k.luaName, value k)), w') ∧ I w' := by
  induction keys with
  | nil =>
    intro p st w control rest hI hc hpos hsize hdrop hkeys _ fuel hfuel
    obtain ⟨fuel, rfl⟩ := Nat.exists_eq_succ_of_ne_zero (Nat.ne_of_gt hfuel)
    have hlen : st.keys.length ≤ p := by
      rw [← List.drop_eq_nil_iff, hdrop]
      exact List.map_eq_nil_iff.mp hkeys
    have hbehind : st.mapSize ≤ st.position := by omega
    obtain ⟨st', hend⟩ := w.nextMap_end t (Or.inr hbehind) tmp
    rw [World.pairsLoop, World.pairsaux_eq hc, hend]
    exact ⟨w, rfl, hI⟩
  | cons key keys ih =>
    intro p st w control rest hI hc hpos hsize hdrop hkeys hnames fuel hfuel
    obtain ⟨fuel, rfl⟩ := Nat.exists_eq_succ_of_ne_zero (show fuel ≠ 0 by omega)
    obtain ⟨rec, rest, rfl⟩ := List.exists_cons_of_ne_nil (l := rest)
      (by rintro rfl; exact absurd hkeys (by simp))
    rw [List.map_cons, List.map_cons, List.cons.injEq] at hkeys hnames
    obtain ⟨-, hlt, hnext, hrest⟩ := PairsState.next_of_drop hpos hdrop
    obtain ⟨w₁, hval, hI₁⟩ := hread w hI key List.mem_cons_self
    rw [World.pairsLoop, World.pairsaux_eq hc, World.nextMap_some hnext (by omega) (by omega)
      hkeys.1 hnames.1 hval]
    have hlater : ∀ w, I w → ∀ k ∈ keys, ∃ w', ((w.getType t k tmp).bind fun r =>
        r.2.getValue r.1.1 r.1.2) = some (.ok (value k), w') ∧ I w' :=
      fun w hI k hk => hread w hI k (List.mem_cons_of_mem key hk)
    obtain ⟨w₂, htail, hI₂⟩ := ih hlater (p + 1)
      { st with position := st.position + 1 } hI₁ (TableKey.luaName_control hnames.1)
      (by simp [hpos]) hsize hrest hkeys.2 hnames.2 fuel (by rw [List.length_cons] at hfuel; omega)
    refine ⟨w₂, ?_, hI₂⟩
    simp only [Option.bind_eq_bind, Option.bind_some]
    rw [htail]
    rfl

/-- A loop that comes to its end could read every key, and yielded nothing
else. -/
theorem World.Sound.of_pairsLoop {tmp : Value} (rest : List TableKey) :
    ∀ {w w' : World} {p fuel : Nat} (st : PairsState) {control : LuaValue}
      {all : List (LuaValue × LuaValue)}, w.Sound t tb m → control.IsControl → st.position = p →
      st.mapSize = st.keys.length → st.keys.drop p = rest →
      World.pairsLoop tmp fuel w t st control = some (.ok all, w') →
      (∀ rec ∈ rest, ∃ key x, rec.toKey = some key ∧ w.nodeReads (m.find key) x)
        ∧ ∀ q ∈ all, ∃ rec ∈ rest, ∃ key, rec.toKey = some key ∧ rec.luaName = some q.1
          ∧ w.nodeReads (m.find key) q.2 := by
  induction rest with
  | nil =>
    intro w w' p fuel st control all h hc hpos hsize hdrop hx
    cases fuel with
    | zero => exact absurd hx (by simp [World.pairsLoop])
    | succ fuel =>
      have hlen : st.keys.length ≤ p := List.drop_eq_nil_iff.mp hdrop
      obtain ⟨st', hend⟩ := w.nextMap_end t (Or.inr (show st.mapSize ≤ st.position by omega)) tmp
      rw [World.pairsLoop, World.pairsaux_eq hc, hend] at hx
      cases hx
      exact ⟨fun rec hrec => absurd hrec (by simp), fun q hq => absurd hq (by simp)⟩
  | cons rec rest ih =>
    intro w w' p fuel st control all h hc hpos hsize hdrop hx
    cases fuel with
    | zero => exact absurd hx (by simp [World.pairsLoop])
    | succ fuel =>
      obtain ⟨-, hlt, hnext, hrest⟩ := PairsState.next_of_drop hpos hdrop
      rw [World.pairsLoop, World.pairsaux_eq hc, World.nextMap_eq hnext (by omega) (by omega)] at hx
      obtain ⟨x, hcall, hloop⟩ := Option.bind_eq_some_iff.mp hx
      obtain ⟨key, hkey, hnamed⟩ := Option.bind_eq_some_iff.mp hcall
      obtain ⟨name, hname, hvalued⟩ := Option.bind_eq_some_iff.mp hnamed
      obtain ⟨⟨o, w₁⟩, hval, heq⟩ := Option.map_eq_some_iff.mp hvalued
      obtain ⟨h₁, hsame, v, rfl, hreads⟩ := h.read hval
      -- the call has yielded, so the rest of the loop went through as well
      rw [← heq] at hloop
      obtain ⟨⟨o₂, w₂⟩, htail, hend⟩ := Option.bind_eq_some_iff.mp hloop
      cases o₂ with
      | error e => exact absurd (congrArg Prod.fst (Option.some.inj hend)) (by simp)
      | ok ps =>
        cases hend
        have hnextpos : st.position + 1 = ((p + 1 : Nat) : Int) := by
          rw [hpos]
          rfl
        obtain ⟨hkeys, hpairs⟩ := ih { st with position := st.position + 1 } h₁
          (TableKey.luaName_control hname) hnextpos hsize hrest htail
        constructor
        · intro r hr
          rcases List.mem_cons.mp hr with rfl | hr
          · exact ⟨key, v, hkey, hreads⟩
          · obtain ⟨k, x, hk, hv⟩ := hkeys r hr
            exact ⟨k, x, hk, (hsame _ _).mp hv⟩
        · intro q hq
          rcases List.mem_cons.mp hq with rfl | hq
          · exact ⟨rec, List.mem_cons_self, key, hkey, hname, hreads⟩
          · obtain ⟨r, hr, k, hk, hn, hv⟩ := hpairs q hq
            exact ⟨r, List.mem_cons_of_mem rec hr, k, hk, hn, (hsame _ _).mp hv⟩

/-! ## §4. The whole traversal. -/

/-- The keys that the snapshot takes in: `keys` stops one below the capacity. -/
def LMap.snapshot (m : LMap) : List (Option Key) :=
  (m.entries.map Node.storedKey).take (capacity m.size - 1)

theorem LMap.snapshot_eq (m : LMap) :
    m.snapshot = (m.entries.take (capacity m.size - 1)).map Node.storedKey :=
  (List.map_take ..).symm

/-- A traversal that comes to its end could take its snapshot and read every key
of it, and yielded nothing else. -/
theorem World.Sound.of_pairsAll (h : w.Sound t tb m) {tmp : Value}
    {all : List (LuaValue × LuaValue)} (hx : w.pairsAll t tmp = some (.ok all, w')) :
    m.size * maxHashDepth < 2147483648
      ∧ (∀ o ∈ m.snapshot, ∃ key x, o = some key ∧ w.nodeReads (m.find key) x)
      ∧ ∀ q ∈ all, ∃ key, some key ∈ m.snapshot ∧ key.luaName = q.1
        ∧ w.nodeReads (m.find key) q.2 := by
  obtain ⟨⟨st, w₁⟩, hsnap, hloop⟩ := Option.bind_eq_some_iff.mp hx
  obtain ⟨hroom, -⟩ := h.of_luaPairs hsnap
  have hlen := m.length_takeRecords (capacity m.size - 1)
  rw [h.luaPairs_eq hroom] at hsnap
  cases hsnap
  have hnil : LuaValue.nil.IsControl := trivial
  obtain ⟨hkeys, hpairs⟩ := h.of_pairsLoop _ (p := 0) _ hnil rfl
    (congrArg Nat.cast hlen.symm) rfl hloop
  refine ⟨hroom, ?_, ?_⟩
  · intro o ho
    rw [m.snapshot_eq] at ho
    obtain ⟨n, hn, rfl⟩ := List.mem_map.mp ho
    obtain ⟨key, x, hkey, hv⟩ := hkeys n.record (List.mem_map_of_mem hn)
    rw [(h.wf.node n (List.mem_of_mem_take hn)).toKey_record] at hkey
    exact ⟨key, x, hkey, hv⟩
  · intro q hq
    obtain ⟨rec, hrec, key, hkey, hname, hv⟩ := hpairs q hq
    obtain ⟨n, hn, rfl⟩ := List.mem_map.mp hrec
    have hnwf := h.wf.node n (List.mem_of_mem_take hn)
    rw [hnwf.toKey_record] at hkey
    rw [hnwf.luaName hkey] at hname
    refine ⟨key, ?_, Option.some.inj hname, hv⟩
    rw [m.snapshot_eq]
    exact List.mem_map.mpr ⟨n, hn, hkey⟩

/-- What a node is read as, `nil` when it cannot be. -/
def World.readOf (w : World) : Option Node → LuaValue
  | some n => (w.valueOf n.v.type n.v.v).getD .nil
  | none => .nil

theorem World.readOf_eq {o : Option Node} {v : LuaValue} (h : w.nodeReads o v) : w.readOf o = v := by
  cases o with
  | none => exact (show v = .nil from h).symm
  | some n =>
    have h : w.valueOf n.v.type n.v.v = some v := h
    show (w.valueOf n.v.type n.v.v).getD .nil = v
    rw [h]
    rfl

/-- A snapshot whose keys can be read is yielded, key by key. -/
theorem World.Sound.pairsAll (h : w.Sound t tb m) (hroom : m.size * maxHashDepth < 2147483648)
    {keys : List Key} (hkeys : m.snapshot = keys.map some)
    (hreads : ∀ key ∈ keys, ∃ x, w.nodeReads (m.find key) x) (tmp : Value) :
    ∃ w', w.pairsAll t tmp
      = some (.ok (keys.map fun k => (k.luaName, w.readOf (m.find k))), w') := by
  rw [m.snapshot_eq] at hkeys
  obtain ⟨hto, hnames⟩ := luaName_records
    (fun n hn => h.wf.node n (List.mem_of_mem_take hn)) hkeys
  have hlen := m.length_takeRecords (capacity m.size - 1)
  have hcount : (m.takeRecords (capacity m.size - 1)).length = keys.length := by
    have hlength := congrArg List.length hkeys
    rw [List.length_map, List.length_map] at hlength
    unfold LMap.takeRecords
    rw [List.length_map, hlength]
  -- a read leaves every other read as it is
  have hread : ∀ w₁ : World, (w₁.Sound t tb m ∧ ∀ o v, w₁.nodeReads o v ↔ w.nodeReads o v) →
      ∀ key ∈ keys, ∃ w₂, ((w₁.getType t key tmp).bind fun r => r.2.getValue r.1.1 r.1.2)
          = some (.ok (w.readOf (m.find key)), w₂)
        ∧ w₂.Sound t tb m ∧ ∀ o v, w₂.nodeReads o v ↔ w.nodeReads o v := by
    rintro w₁ ⟨h₁, hsame⟩ key hkey
    obtain ⟨x, hx⟩ := hreads key hkey
    rw [World.readOf_eq hx]
    obtain ⟨w₂, hval⟩ := (h₁.reads_iff key tmp x).mpr ((hsame _ _).mpr hx)
    obtain ⟨h₂, hsame', -⟩ := h₁.read hval
    exact ⟨w₂, hval, h₂, fun o v => (hsame' o v).trans (hsame o v)⟩
  have hnil : LuaValue.nil.IsControl := trivial
  obtain ⟨w', hloop, -⟩ := World.pairsLoop_of_reads keys hread 0
    ⟨_, 0, m.takeRecords (capacity m.size - 1)⟩ (w := w)
    ⟨h, fun _ _ => Iff.rfl⟩ hnil rfl (congrArg Nat.cast hlen.symm) rfl hto hnames
    ((m.takeRecords (capacity m.size - 1)).length + 1) (by rw [hcount]; exact Nat.lt_succ_self _)
  refine ⟨w', ?_⟩
  unfold World.pairsAll
  rw [h.luaPairs_eq hroom]
  exact hloop

end LightTable
