/-
  LightTable.Lua.Assign
  ─────────────────────
  What becomes of a numeric key on its way through an assignment.

  `_get_key` truncates the number and keeps it as a `size_t`, so the test for a
  negative index never holds; the node narrows it to an `int`, and `_next_map`
  pushes that `int`, widened again, as a double.  Only an integer from 0 to
  2^31 - 1 comes back as the number that was assigned (`assignMeets_iff`).
-/
import LightTable.Lua.Convert
import LightTable.Lua.Pairs
import LightTable.Table.Listing
import LightTable.Table.Overwrite

namespace LightTable

open ChainedHash

variable {w w₀ w' : World} {t : Addr} {tb : Table} {m m' : LMap} {c : SetCall} {key : Key}

/-! ## §1. The number a key is pushed as. -/

/-- A number that stands for a key is an integer in range. -/
theorem LuaValue.IsKey.index {k : Word} (h : (LuaValue.number k).IsKey key) :
    ∃ i, i < 2147483648 ∧ key = .num (UInt64.ofNat i)
      ∧ LightTable.rawequal (intKey i) (.number k) = true := by
  cases h with
  | number i hi => exact ⟨i, hi, rfl, (LuaValue.IsKey.number i hi).rawequal (.number i hi)⟩
  | negativeZero =>
    exact ⟨0, by decide, rfl, (LuaValue.IsKey.number 0 (by decide)).rawequal .negativeZero⟩

theorem eq_of_rawequal {n k : Word} (h : rawequal (.number n) (.number k) = true) :
    n = k ∨ (isZero n = true ∧ isZero k = true) := by
  unfold rawequal at h
  rw [Bool.and_eq_true, Bool.or_eq_true, decide_eq_true_eq, decide_eq_true_eq, Bool.and_eq_true] at h
  exact h.2

/-- An index that a node stores is pushed as `i` when it is `i` only. -/
theorem eq_of_ofNat_eq {idx : UInt64} (hfit : (Key.num idx).Fits) {i : Nat} (hi : i < 2147483648)
    (h : Binary64.ofNat idx.toNat = Binary64.ofNat i) : idx.toNat = i := by
  rcases (Key.fits_iff (.num idx)).mp hfit with hlt | ⟨hle, -⟩
  · have hlt : idx.toNat < 2147483648 := hlt
    have htrunc := Binary64.truncate_ofNat (n := idx.toNat) (by omega)
    rw [h, Binary64.truncate_ofNat (by omega)] at htrunc
    have := Option.some.inj htrunc
    omega
  · have hle : 18446744071562067968 ≤ idx.toNat := hle
    have hne := Binary64.ofNat_lt_ofNat (i := i) (n := idx.toNat) (by omega) (by omega)
    omega

/-- A stored key that is pushed as a number equal to `k` is the key of `k`. -/
theorem Key.Fits.eq_of_luaName {key' : Key} (hfit : key'.Fits) {k : Word}
    (hk : (LuaValue.number k).IsKey key) (h : rawequal key'.luaName (.number k) = true) :
    key' = key := by
  cases key' with
  | str s =>
    have h : decide (LuaValue.string s = .number k) = true := h
    exact absurd (of_decide_eq_true h) (by simp)
  | num idx =>
    obtain ⟨i, hi, rfl, hname⟩ := hk.index
    have hzero : ∀ n : Nat, n < 18446744073709551616 → isZero (Binary64.ofNat n) = true → n = 0 :=
      fun n hn hz => Binary64.ofNat_mod_eq_zero hn (of_decide_eq_true hz)
    have hidx : idx.toNat = i := by
      rcases eq_of_rawequal h with heq | ⟨hz, hkz⟩
      · rcases eq_of_rawequal hname with heq' | ⟨hz', hkz'⟩
        · exact eq_of_ofNat_eq hfit hi (heq.trans heq'.symm)
        · rw [← heq] at hkz'
          rw [hzero _ idx.toNat_lt hkz', hzero i (by omega) hz']
      · rcases eq_of_rawequal hname with heq' | ⟨hz', -⟩
        · rw [← heq'] at hkz
          rw [hzero _ idx.toNat_lt hz, hzero i (by omega) hkz]
        · rw [hzero _ idx.toNat_lt hz, hzero i (by omega) hz']
    rw [← hidx, UInt64.ofNat_toNat]

/-- The key of `k` is pushed as a number equal to `k`. -/
theorem LuaValue.IsKey.luaName_rawequal {k : Word} (hk : (LuaValue.number k).IsKey key) :
    LightTable.rawequal key.luaName (.number k) = true := by
  obtain ⟨i, hi, rfl, hname⟩ := hk.index
  show LightTable.rawequal (.number (Binary64.ofNat (UInt64.ofNat i).toNat)) (.number k) = true
  rw [toNat_ofNat_small hi]
  exact hname

/-! ## §2. Assignments that are refused or kept. -/

/-- The assignment `t[k] = v` of a number key raises an error and leaves every
key as it was; or `k` is an integer in range whose key reads as `v`, no other
key changes, and a `pairs` loop comes to its end and has yielded `v` under a
number equal to `k`. -/
def World.AssignMeets (w : World) (t : Addr) (k : Word) (v : LuaValue) (tmp : Value) : Prop :=
  ∃ o w', w.luaSet t (.number k) v tmp = some (o, w') ∧
    match o with
    | .error _ => ∀ key, w'.readBack t key = w.readBack t key
    | .ok () => ∃ key, (LuaValue.number k).IsKey key
        ∧ (∀ key', key' ≠ key → w'.readBack t key' = w.readBack t key')
        ∧ w'.ReadsNow t key v
        ∧ ∀ tmp, ∃ all w'' n, w'.pairsAll t tmp = some (.ok all, w'') ∧ (n, v) ∈ all
          ∧ rawequal n (.number k) = true

/-- The keys that a snapshot takes in after a call. -/
def LMap.reported (m : LMap) (c : SetCall) : List (Option Key) :=
  (m.listing c).take (capacity (m.sizeAfter c) - 1)

/-- Another key can be read after the call: what answers to it can be read
beside the new lstring, or, where a string is swapped, the key can be read
already or names the same lstring. -/
def World.StaysReadable (w : World) (m : LMap) (c : SetCall) (key : Key) : Prop :=
  if m.Inserts c then
    ∃ x, (w.storing c.arg).nodeReads (m.answer (maxHashDepth ≤ m.depth c.key) key) x
  else (∃ x, w.nodeReads (m.find key) x) ∨ ∃ n n', m.find c.key = some n ∧ m.find key = some n'
    ∧ n'.v.type = .string ∧ n'.v.v = n.v.v

/-- What an accepted call needs of the map `m` it finds to change one entry, to
`v`, that `pairs` then reports. -/
structure World.EntryKept (w : World) (m : LMap) (c : SetCall) (v : LuaValue) : Prop where
  -- a string that is swapped is no other key's
  swapped : ¬ m.Inserts c → ∀ n, m.find c.key = some n → w.InPlace m c n
  -- beside the new lstring, and in a map that may grow, other keys show the same
  others : m.Inserts c → ∀ key, key ≠ c.key →
    (w.storing c.arg).showsNode (m.answer (maxHashDepth ≤ m.depth c.key) key)
      = w.showsNode (m.find key)
  -- what is written is what is read
  value : w.ValueKept m c v
  -- the capacity is an `int` afterwards
  room : m.sizeAfter c * maxHashDepth < 2147483648
  -- the iterator gets to the key, and past the others
  listed : some c.key ∈ m.reported c
  readable : ∀ o ∈ m.reported c, ∃ key, o = some key ∧ (key ≠ c.key → w.StaysReadable m c key)

/-- What an assignment of `v` as the argument `arg` needs: the call is harmless,
and on a key that is absent or holds the type of `arg` it is to an integer in
range and changes one entry. -/
def World.AssignAllowed (w : World) (t : Addr) (m : LMap) (k : Word) (v : LuaValue) (arg : Arg)
    (tmp : Value) : Prop :=
  ∃ key, getKey (.number k) = some (.ok key) ∧ w.SetHarmless m ⟨key, arg, tmp⟩
    ∧ (¬ w.Mismatch t ⟨key, arg, tmp⟩ →
        (LuaValue.number k).IsKey key ∧ w.EntryKept m ⟨key, arg, tmp⟩ v)

/-! ## §3. The other keys. -/

/-- What another key reads as after an accepted insert. -/
theorem World.Sound.readsNow_other (h : w.Sound t tb m) {r : Int} (hset : w.set t c = some (r, w'))
    (hi : m.Inserts c) (hfit : c.key.Fits) (hne : key ≠ c.key) (x : LuaValue) :
    w'.ReadsNow t key x
      ↔ (w.storing c.arg).nodeReads (m.answer (maxHashDepth ≤ m.depth c.key) key) x := by
  obtain ⟨h₁, ty, hins⟩ := h.of_inserts hset hi
  have hvt : (w.storedValue c.arg c.tmp).type ≠ .nil := by
    rw [w.storedValue_type]
    exact c.arg.type_ne_nil
  obtain ⟨-, hframe, tb', m', hsound', hgrown, hready⟩ := h₁.insertTable hvt hins
  have hfind := (h.wf.inserted c.key _ hvt).find_grown hgrown hready key
  rw [h.wf.answer_inserted (hfit.stored_ne hne)] at hfind
  rw [hsound'.readsNow_iff, World.nodeReads_congr hframe.lstrings hframe.slots hfind]

/-- What it shows. -/
theorem World.Sound.readBack_other (h : w.Sound t tb m) {r : Int} (hset : w.set t c = some (r, w'))
    (hi : m.Inserts c) (hfit : c.key.Fits) (hne : key ≠ c.key) :
    w'.readBack t key = w.readBack t key ↔ (w.storing c.arg).showsNode
      (m.answer (maxHashDepth ≤ m.depth c.key) key) = w.showsNode (m.find key) := by
  obtain ⟨h₁, ty, hins⟩ := h.of_inserts hset hi
  have hvt : (w.storedValue c.arg c.tmp).type ≠ .nil := by
    rw [w.storedValue_type]
    exact c.arg.type_ne_nil
  rw [h₁.readBack_inserted hvt hins hfit hne, h.readBack, Option.some.injEq]

/-- What a union reads as after the string of the lstring `p` was replaced, unless
it is that string. -/
theorem World.valueOf_updated (ha : w.Apart) (ht : w.Tidy) {p : Addr}
    (hls : ∀ a, a ≠ p → w'.lstrings a = w.lstrings a)
    (hsl : ∀ s, s ≠ w.brk → w.lstrings p ≠ some ⟨s⟩ → w'.slots s = w.slots s) {type : LType}
    {u : Word} (hne : ¬ (type = .string ∧ u = p)) : w'.valueOf type u = w.valueOf type u := by
  cases type with
  | string =>
    have hup : u ≠ p := fun hu => hne ⟨rfl, hu⟩
    rw [World.valueOf_lstring, World.valueOf_lstring, hls u hup]
    cases hl : w.lstrings u with
    | none => rfl
    | some ls =>
      -- its slot is neither the old one of `p` nor the new one
      have hold : w.lstrings p ≠ some ⟨ls.slot⟩ := fun hp => hup (ha u p ls.slot hl hp)
      rw [Option.bind_some, Option.bind_some, hsl _ (Nat.ne_of_lt (ht u ls.slot hl)) hold]
  | nil => rfl
  | number => rfl
  | boolean => rfl
  | ud => rfl

/-- Whether another key can be read after a string was swapped, when the new
string can. -/
theorem World.Sound.readable_swapped (h : w.Sound t tb m) (ha : w.Apart)
    (hset : w.set t c = some (0, w')) (hi : ¬ m.Inserts c)
    (hlen : ∀ str, c.arg = .string str → asSize (asInt str.length) = str.length) (key : Key) :
    (∃ x, w'.ReadsNow t key x) ↔ (∃ x, w.nodeReads (m.find key) x)
      ∨ ∃ n n', m.find c.key = some n ∧ m.find key = some n' ∧ n'.v.type = .string
        ∧ n'.v.v = n.v.v := by
  obtain ⟨str, n, harg, hn, hty, hup⟩ := h.of_swaps hset hi
  obtain ⟨h', hls, hsl, hother, hslots⟩ := h.updateString hup
  simp only [h'.readsNow_iff]
  cases hf : m.find key with
  | none => exact ⟨fun hx => Or.inl hx, fun _ => ⟨.nil, rfl⟩⟩
  | some n' =>
    by_cases hsame : n'.v.type = .string ∧ n'.v.v = n.v.v
    · refine ⟨fun _ => Or.inr ⟨n, n', hn, rfl, hsame⟩, fun _ => ⟨.string str, ?_⟩⟩
      show w'.valueOf n'.v.type n'.v.v = some (.string str)
      rw [hsame.1, hsame.2]
      exact (World.valueOf_string hls hsl).mpr (hlen str harg)
    · have hval := World.valueOf_updated ha h.tidy hother hslots hsame
      constructor
      · rintro ⟨x, hx⟩
        exact Or.inl ⟨x, hval.symm.trans hx⟩
      · rintro (⟨x, hx⟩ | ⟨n₁, n₂, hn₁, hn₂, hs⟩)
        · exact ⟨x, hval.trans hx⟩
        · rw [hn, Option.some.injEq] at hn₁
          rw [Option.some.injEq] at hn₂
          rw [← hn₁, ← hn₂] at hs
          exact absurd hs hsame

/-- What the other keys show after a string was swapped. -/
theorem World.Sound.others_swapped (h : w.Sound t tb m) (ha : w.Apart)
    (hset : w.set t c = some (0, w')) (hi : ¬ m.Inserts c) :
    (∀ key, key ≠ c.key → w'.readBack t key = w.readBack t key)
      ↔ ∀ n, m.find c.key = some n → w.InPlace m c n := by
  obtain ⟨str, n, harg, hn, hty, hup⟩ := h.of_swaps hset hi
  have h' := (h.updateString hup).1
  have hchanges := h.string_changesOnly ha harg hn hty
  constructor
  · intro hothers x hx
    rw [hn, Option.some.injEq] at hx
    rw [← hx, World.inPlace_string harg, ← hchanges]
    exact ⟨0, w', m, hset, h'.toOwns.current, rfl, rfl, fun _ => Iff.rfl, hothers⟩
  · intro hplace
    have hx := (World.inPlace_string harg n).mp (hplace n hn)
    obtain ⟨r', w₂, m', hset', -, -, -, -, hothers⟩ := hchanges.mpr hx
    rw [hset] at hset'
    cases hset'
    exact hothers

/-! ## §4. An accepted call. -/

/-- Whether an entry is the only one that changes. -/
theorem World.Sound.others_iff (h : w.Sound t tb m) (ha : w.Apart)
    (hset : w.set t c = some (0, w')) (hfit : c.key.Fits) :
    (∀ key, key ≠ c.key → w'.readBack t key = w.readBack t key)
      ↔ (¬ m.Inserts c → ∀ n, m.find c.key = some n → w.InPlace m c n)
        ∧ (m.Inserts c → ∀ key, key ≠ c.key → (w.storing c.arg).showsNode
            (m.answer (maxHashDepth ≤ m.depth c.key) key) = w.showsNode (m.find key)) := by
  by_cases hi : m.Inserts c
  · have hiff : ∀ key, key ≠ c.key → (w'.readBack t key = w.readBack t key ↔ _) :=
      fun key hne => h.readBack_other hset hi hfit hne
    constructor
    · exact fun ho => ⟨fun hn => absurd hi hn, fun _ key hne => (hiff key hne).mp (ho key hne)⟩
    · exact fun hc key hne => (hiff key hne).mpr (hc.2 hi key hne)
  · rw [h.others_swapped ha hset hi]
    exact ⟨fun ho => ⟨fun _ => ho, fun hn => absurd hn hi⟩, fun hc => hc.1 hi⟩

/-- Whether another key can be read after a call that keeps its value. -/
theorem World.Sound.readable_iff (h : w.Sound t tb m) (ha : w.Apart)
    (hset : w.set t c = some (0, w')) (hfit : c.key.Fits) {v : LuaValue}
    (hkept : w.ValueKept m c v) (hne : key ≠ c.key) :
    (∃ x, w'.ReadsNow t key x) ↔ w.StaysReadable m c key := by
  unfold World.StaysReadable
  by_cases hi : m.Inserts c
  · rw [if_pos hi]
    exact exists_congr (fun x => h.readsNow_other hset hi hfit hne x)
  · have hlen : ∀ str, c.arg = .string str → asSize (asInt str.length) = str.length := by
      unfold World.ValueKept at hkept
      rwa [LMap.heir_of_not (fun hx => hi hx.1)] at hkept
    rw [if_neg hi]
    exact h.readable_swapped ha hset hi hlen key

/-- What a `pairs` loop over the table needs to yield `v` under a number equal to
`k`, when the key of `k` reads as `v`. -/
theorem World.Sound.pairs_iff (h : w.Sound t tb m) {k : Word} (hk : (LuaValue.number k).IsKey key)
    {v : LuaValue} (hv : w.ReadsNow t key v) (tmp : Value) :
    (∃ all w' n, w.pairsAll t tmp = some (.ok all, w') ∧ (n, v) ∈ all
        ∧ rawequal n (.number k) = true)
      ↔ m.size * maxHashDepth < 2147483648 ∧ some key ∈ m.snapshot
        ∧ ∀ o ∈ m.snapshot, ∃ key', o = some key' ∧ (key' ≠ key → ∃ x, w.ReadsNow t key' x) := by
  constructor
  · rintro ⟨all, w', n, hx, hmem, hname⟩
    obtain ⟨hroom, hkeys, hpairs⟩ := h.of_pairsAll hx
    obtain ⟨key', hsnap, hn, -⟩ := hpairs (n, v) hmem
    have hfit : key'.Fits := by
      rw [m.snapshot_eq] at hsnap
      obtain ⟨node, hnode, hstored⟩ := List.mem_map.mp hsnap
      exact (h.wf.node node (List.mem_of_mem_take hnode)).storedKey_fits hstored
    rw [← show key'.luaName = n from hn] at hname
    rw [hfit.eq_of_luaName hk hname] at hsnap
    refine ⟨hroom, hsnap, ?_⟩
    intro o ho
    obtain ⟨key₁, x, hkey₁, hreads⟩ := hkeys o ho
    exact ⟨key₁, hkey₁, fun _ => ⟨x, (h.readsNow_iff key₁ x).mpr hreads⟩⟩
  · rintro ⟨hroom, hsnap, hall⟩
    have hnode := (h.readsNow_iff key v).mp hv
    -- every key of the snapshot can be read, that of `k` among them
    have hread : ∀ key', some key' ∈ m.snapshot → ∃ x, w.nodeReads (m.find key') x := by
      intro key' hkey'
      by_cases hkk : key' = key
      · exact ⟨v, by rw [hkk]; exact hnode⟩
      · obtain ⟨key₁, heq, hx⟩ := hall _ hkey'
        cases heq
        obtain ⟨x, hx⟩ := hx hkk
        exact ⟨x, (h.readsNow_iff key' x).mp hx⟩
    have hsome : m.snapshot = (m.snapshot.filterMap id).map some := by
      rw [List.map_filterMap_some_eq_filter_map_isSome, List.filter_eq_self.mpr, List.map_id]
      intro o ho
      rw [List.map_id] at ho
      obtain ⟨key', rfl, -⟩ := hall o ho
      rfl
    have hmem : ∀ key', key' ∈ m.snapshot.filterMap id ↔ some key' ∈ m.snapshot := by
      intro key'
      simp [List.mem_filterMap]
    obtain ⟨w', hloop⟩ := h.pairsAll hroom hsome
      (fun key' hkey' => hread key' ((hmem key').mp hkey')) tmp
    refine ⟨_, w', key.luaName, hloop, ?_, hk.luaName_rawequal⟩
    refine List.mem_map.mpr ⟨key, (hmem key).mpr hsnap, ?_⟩
    rw [World.readOf_eq hnode]

/-- An accepted call changes one entry to `v`, and `pairs` reports it, exactly
when `EntryKept` holds. -/
theorem World.Sound.accepted_iff (h : w.Sound t tb m) (ha : w.Apart)
    (hset : w.set t c = some (0, w')) {v : LuaValue} (hv : v.arg = some c.arg) {k : Word}
    (hk : (LuaValue.number k).IsKey c.key) :
    ((∀ key, key ≠ c.key → w'.readBack t key = w.readBack t key) ∧ w'.ReadsNow t c.key v
        ∧ ∀ tmp, ∃ all w'' n, w'.pairsAll t tmp = some (.ok all, w'') ∧ (n, v) ∈ all
          ∧ rawequal n (.number k) = true)
      ↔ w.EntryKept m c v := by
  obtain ⟨tb', m', h', heff⟩ := h.set_effect hset
  obtain ⟨hsize, hlist⟩ := heff.listing h.wf
  have hfit : c.key.Fits := hk.short.fits
  have hsnap : m'.snapshot = m.reported c := by
    unfold LMap.snapshot LMap.reported
    rw [hlist, hsize]
  have hreads := h.readsNow_stored hset hv
  rw [h.others_iff ha hset hfit, hreads, and_iff_right hfit]
  constructor
  · rintro ⟨hothers, hkept, hpairs⟩
    have hv' := hreads.mpr ⟨hfit, hkept⟩
    obtain ⟨hroom, hlisted, hall⟩ := (h'.pairs_iff hk hv' .blank).mp (hpairs .blank)
    rw [hsize] at hroom
    rw [hsnap] at hlisted hall
    refine ⟨hothers.1, hothers.2, hkept, hroom, hlisted, ?_⟩
    intro o ho
    obtain ⟨key', hkey', hx⟩ := hall o ho
    exact ⟨key', hkey', fun hne => (h.readable_iff ha hset hfit hkept hne).mp (hx hne)⟩
  · intro hc
    have hv' := hreads.mpr ⟨hfit, hc.value⟩
    refine ⟨⟨hc.swapped, hc.others⟩, hc.value, ?_⟩
    intro tmp
    refine (h'.pairs_iff hk hv' tmp).mpr ?_
    rw [hsize, hsnap]
    refine ⟨hc.room, hc.listed, ?_⟩
    intro o ho
    obtain ⟨key', hkey', hx⟩ := hc.readable o ho
    exact ⟨key', hkey', fun hne => (h.readable_iff ha hset hfit hc.value hne).mpr (hx hne)⟩

/-! ## §5. The result. -/

/-- `_get_key` refuses no number. -/
theorem getKey_number {k : Word} {v : LuaValue} {tmp : Value} {r : Outcome Unit × World}
    (hx : w.luaSet t (.number k) v tmp = some r) : ∃ key, getKey (.number k) = some (.ok key) := by
  obtain ⟨o, hkey, -⟩ := Option.bind_eq_some_iff.mp hx
  obtain ⟨sz, -, hsz⟩ := Option.bind_eq_some_iff.mp hkey
  exact ⟨_, hkey.trans hsz.symm⟩

/-- In every table reached by setter calls, the assignment of a supported value
under a number is refused or kept exactly when it is allowed. -/
theorem assignMeets_iff {w₁ : World} {calls : List SetCall} {rs : List Int} (hw : w.Tidy)
    (ha : w.Apart) (hnew : w.newTable = some (t, w₀)) (hrun : w₀.setAll t calls = some (rs, w₁))
    (k : Word) {v : LuaValue} {arg : Arg} (hv : v.arg = some arg) (tmp : Value) :
    ∃ m, w₁.current t = some m
      ∧ (w₁.AssignMeets t k v tmp ↔ w₁.AssignAllowed t m k v arg tmp) := by
  obtain ⟨tb₀, h₀⟩ := World.Sound.newTable hw hnew
  obtain ⟨tb, m, h⟩ := h₀.setAll hrun
  have ha₁ := (ha.newTable hnew).setAll h₀ hrun
  refine ⟨m, h.toOwns.current, ?_⟩
  constructor
  · rintro ⟨o, w', hx, hcase⟩
    obtain ⟨key, hkey⟩ := getKey_number hx
    rw [World.luaSet_key hkey, World.setValue_arg hv] at hx
    obtain ⟨⟨r, w₂⟩, hset, heq⟩ := Option.map_eq_some_iff.mp hx
    have hnonzero := h.set_nonzero_iff hset
    by_cases hr : r = 0
    · -- the assignment is accepted
      rw [if_neg (not_not.mpr hr)] at heq
      cases heq
      obtain ⟨key', hIs, hentry⟩ := hcase
      have hsame : key' = key := by
        have := hIs.getKey
        rw [hkey] at this
        cases this
        rfl
      subst hsame
      have hmis : ¬ w₁.Mismatch t ⟨key', arg, tmp⟩ := fun hm => hnonzero.mpr hm hr
      refine ⟨key', hkey, (h.meets_iff _).mp ⟨r, w₂, hset, hnonzero, fun hne => absurd hr hne⟩, ?_⟩
      rw [hr] at hset
      exact fun _ => ⟨hIs, (h.accepted_iff ha₁ hset hv hIs).mp hentry⟩
    · -- it raises an error
      rw [if_pos hr] at heq
      cases heq
      refine ⟨key, hkey, (h.meets_iff _).mp ⟨r, w₂, hset, hnonzero, fun _ => hcase⟩, ?_⟩
      exact fun hmis => absurd (hnonzero.mp hr) hmis
  · rintro ⟨key, hkey, hharm, hallow⟩
    obtain ⟨r, w', hset, hnonzero, hsame⟩ := (h.meets_iff _).mpr hharm
    have hx : w₁.luaSet t (.number k) v tmp
        = some (if r ≠ 0 then .error (errorText key v.typename) else .ok (), w') := by
      rw [World.luaSet_key hkey, World.setValue_arg hv, hset]
      rfl
    by_cases hr : r = 0
    · have hmis : ¬ w₁.Mismatch t ⟨key, arg, tmp⟩ := fun hm => hnonzero.mpr hm hr
      obtain ⟨hIs, hkept⟩ := hallow hmis
      rw [if_neg (not_not.mpr hr)] at hx
      rw [hr] at hset
      exact ⟨.ok (), w', hx, key, hIs, (h.accepted_iff ha₁ hset hv hIs).mpr hkept⟩
    · rw [if_pos hr] at hx
      exact ⟨.error _, w', hx, hsame hr⟩

/-- The theorem at a table that holds one string, for a second key. -/
theorem assignMeets_iff_second :
    ∃ t w₀ w₁ m, World.empty.newTable = some (t, w₀)
      ∧ w₀.setAll t [⟨.str [97], .string [98], .blank⟩] = some ([0], w₁) ∧ w₁.current t = some m
      ∧ (w₁.AssignMeets t (Binary64.ofNat 1) (.number 5) .blank
        ↔ w₁.AssignAllowed t m (Binary64.ofNat 1) (.number 5) (.number 5) .blank) := by
  have hall : (World.empty.newTable.bind fun p =>
      (p.2.setAll p.1 [⟨.str [97], .string [98], .blank⟩]).map Prod.fst) = some [0] := by decide
  obtain ⟨⟨t, w₀⟩, hnew, hall⟩ := Option.bind_eq_some_iff.mp hall
  obtain ⟨⟨rs, w₁⟩, hrun, rfl⟩ := Option.map_eq_some_iff.mp hall
  obtain ⟨m, hm, hiff⟩ := assignMeets_iff World.empty_tidy World.empty_apart hnew hrun
    (Binary64.ofNat 1) (v := .number 5) rfl .blank
  exact ⟨t, w₀, w₁, m, hnew, hrun, hm, hiff⟩

/-- The double -1. -/
def minusOne : Word := 13830554455654793216

/-- The double 2.5. -/
def twoAndHalf : Word := 4612811918334230528

/-- `t[-1]` and `t[2.5]` are accepted on a fresh table, and `pairs` reports
them under 2^64 and under 2. -/
theorem assign_takes_any_number :
    ∃ t w₀ w₁ w₂, World.empty.newTable = some (t, w₀)
      ∧ w₀.luaSet t (.number minusOne) (.boolean true) .blank = some (.ok (), w₁)
      ∧ (w₁.luaPairs t).map (fun x => x.1.keys.map TableKey.luaName)
        = some [some (.number (Binary64.ofNat 18446744073709551616))]
      ∧ ¬ w₀.AssignMeets t minusOne (.boolean true) .blank
      ∧ w₀.luaSet t (.number twoAndHalf) (.boolean true) .blank = some (.ok (), w₂)
      ∧ (w₂.luaPairs t).map (fun x => x.1.keys.map TableKey.luaName) = some [some (intKey 2)]
      ∧ ¬ w₀.AssignMeets t twoAndHalf (.boolean true) .blank := by
  have hall : (World.empty.newTable.bind fun p =>
      (p.2.luaSet p.1 (.number minusOne) (.boolean true) .blank).bind fun q =>
        (p.2.luaSet p.1 (.number twoAndHalf) (.boolean true) .blank).map fun q' =>
          (q.1, q'.1, decide ((q.2.luaPairs p.1).map (fun x => x.1.keys.map TableKey.luaName)
              = some [some (.number (Binary64.ofNat 18446744073709551616))]),
            decide ((q'.2.luaPairs p.1).map (fun x => x.1.keys.map TableKey.luaName)
              = some [some (intKey 2)])))
      = some (.ok (), .ok (), true, true) := by decide +kernel
  obtain ⟨⟨t, w₀⟩, hnew, hall⟩ := Option.bind_eq_some_iff.mp hall
  obtain ⟨⟨o₁, w₁⟩, hset₁, hall⟩ := Option.bind_eq_some_iff.mp hall
  obtain ⟨⟨o₂, w₂⟩, hset₂, hall⟩ := Option.map_eq_some_iff.mp hall
  simp only [Prod.mk.injEq, decide_eq_true_eq] at hall
  obtain ⟨rfl, rfl, hnames₁, hnames₂⟩ := hall
  -- a key that is no integer in range must not be accepted
  have hno : ∀ (k : Word) {w₃ : World}, w₀.luaSet t (.number k) (.boolean true) .blank
      = some (.ok (), w₃) → (∀ key, ¬ (LuaValue.number k).IsKey key) →
        ¬ w₀.AssignMeets t k (.boolean true) .blank := by
    rintro k w₃ hset hk ⟨o, w', hx, hcase⟩
    rw [hset] at hx
    cases hx
    obtain ⟨key, hIs, -⟩ := hcase
    exact hk key hIs
  refine ⟨t, w₀, w₁, w₂, hnew, hset₁, hnames₁, hno _ hset₁ ?_, hset₂, hnames₂, hno _ hset₂ ?_⟩
  · intro key hIs
    have hkey : getKey (.number minusOne) = some (.ok (.num 18446744073709551615)) := by decide
    rw [hIs.getKey] at hkey
    cases hkey
    exact absurd hIs.short (by decide)
  · intro key hIs
    have hkey : getKey (.number twoAndHalf) = some (.ok (.num 2)) := by decide
    obtain ⟨i, hi, rfl, hname⟩ := hIs.index
    rw [hIs.getKey] at hkey
    have htwo := congrArg UInt64.toNat (Key.num.inj (Outcome.ok.inj (Option.some.inj hkey)))
    rw [toNat_ofNat_small hi] at htwo
    have htwo : i = 2 := htwo
    rw [htwo] at hname
    exact absurd hname (by decide)

end LightTable
