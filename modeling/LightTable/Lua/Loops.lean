/-
  LightTable.Lua.Loops
  ────────────────────
  What the two generic `for` loops over a light table show.

  `_ipairs` counts from 1 and stops at the first index that reads `LT_NIL`;
  `_pairs` takes a snapshot of the keys and reads them one after the other.  On
  a table that represents a store both leave the world as it is: the first
  yields the longest prefix of the array (`World.Rep.luaIpairs`), the second
  every key once with its value (`World.Rep.pairsAll`).
-/
import LightTable.Lua.Convert
import LightTable.Lua.Pairs
import LightTable.Table.Session

namespace LightTable

/-! ## §1. The loop over `ipairs`. -/

/-- The generic `for` over `_ipairsaux`, at most `fuel` rounds; gives the pairs
its body saw. -/
def World.ipairsLoop (tmp : Value) : Nat → World → Addr → LuaValue →
    Option (Outcome (List (LuaValue × LuaValue)) × World)
  | fuel + 1, w, t, .number control => do
      match ← w.ipairsaux t control tmp with
      | (.error e, w) => return (.error e, w)
      | (.ok none, w) => return (.ok [], w)
      | (.ok (some p), w) =>
          match ← World.ipairsLoop tmp fuel w t p.1 with
          | (.error e, w) => return (.error e, w)
          | (.ok ps, w) => return (.ok (p :: ps), w)
  | _, _, _, _ => none

/-- `for i, v in lighttable.ipairs(t)` with an empty body: `_ipairs` gives the
iterator, the table and 0, and the index is an `int`. -/
def World.luaIpairs (w : World) (t : Addr) (tmp : Value) :
    Option (Outcome (List (LuaValue × LuaValue)) × World) :=
  World.ipairsLoop tmp 2147483648 w t (.number (Binary64.ofInt 0))

/-! ## §2. Stored values in Lua. -/

/-- The Lua value that `_get_value` pushes for a stored value. -/
def Arg.luaValue : Arg → LuaValue
  | .number n => .number n
  | .boolean b => .boolean (b != 0)
  | .ud u => .lightuserdata u
  | .string str => .string str

/-- A string whose length fits an `int`; any other value. -/
def Arg.Short : Arg → Prop
  | .string str => str.length < 2147483648
  | _ => True

instance : DecidablePred Arg.Short
  | .string _ => inferInstanceAs (Decidable (_ < _))
  | .number _ => isTrue trivial
  | .boolean _ => isTrue trivial
  | .ud _ => isTrue trivial

/-- The strings of the store are short. -/
def Store.Short (s : Store) : Prop := ∀ key a, s key = some a → a.Short

/-- The Lua value under a key. -/
def Store.luaValue (s : Store) (key : Key) : LuaValue := ((s key).map Arg.luaValue).getD .nil

theorem Arg.luaValue_ne_nil (a : Arg) : a.luaValue ≠ .nil := by
  cases a <;> simp [Arg.luaValue]

theorem Store.luaValue_some {s : Store} {key : Key} {a : Arg} (h : s key = some a) :
    s.luaValue key = a.luaValue := by
  unfold Store.luaValue
  rw [h]
  rfl

/-- It is `nil` under the absent keys only. -/
theorem Store.luaValue_eq_nil {s : Store} {key : Key} : s.luaValue key = .nil ↔ s key = none := by
  cases hs : s key with
  | none =>
    unfold Store.luaValue
    rw [hs]
    simp
  | some a =>
    rw [Store.luaValue_some hs]
    simpa using a.luaValue_ne_nil

variable {w w' : World} {t : Addr} {s s' : Store} {tb tb' : Table} {m m' : LMap}

theorem World.readSlot_eq {slot : Addr} {sl : StringSlot} (h : w.slots slot = some sl) :
    w.readSlot slot = readBytes sl.buf (asSize sl.sz) := by
  unfold World.readSlot
  rw [h]
  rfl

theorem readBytes_terminated (str : Bytes) : readBytes (str ++ [0]) str.length = some str := by
  unfold readBytes
  rw [if_pos (by simp), List.take_left]

/-- `get_type` and `_get_value` of a key give the value it has in the store. -/
theorem World.Rep.luaReads (h : w.Rep t s tb m) (hshort : s.Short) (key : Key) (tmp : Value) :
    ((w.getType t key tmp).bind fun r => r.2.getValue r.1.1 r.1.2)
      = some (.ok (s.luaValue key), w) := by
  rw [h.toOwns.getType h.inv.toWf, Option.bind_some]
  cases hs : s key with
  | none =>
    rw [h.absent key hs, Store.luaValue_eq_nil.mpr hs]
    rfl
  | some a =>
    obtain ⟨v, hv, hst⟩ := h.view_some hs
    rw [hv, Store.luaValue_some hs]
    cases a with
    | number n =>
      cases hst
      rfl
    | ud u =>
      cases hst
      rfl
    | boolean b =>
      have hb : Word.b v = b := hst.2
      rw [← hb]
      rfl
    | string str =>
      -- the slot is pinned while `lua_pushlstring` copies it
      obtain ⟨-, slot, hls, hsl⟩ := hst
      obtain ⟨w₁, hgrab, hpin, hrel⟩ := World.grab_release hls hsl rfl
      have hlt : str.length < 2147483648 := hshort key _ hs
      have hlen : asSize (asInt str.length) = str.length := Key.Short.fits (k := .str str) hlt
      have hsz : asSize (LightTable.newString str).sz = str.length := hlen
      have hread : w₁.readSlot slot = some str := by
        rw [World.readSlot_eq hpin]
        show readBytes (LightTable.newString str).buf (asSize (LightTable.newString str).sz) = _
        rw [hsz]
        exact readBytes_terminated str
      show (w.valueString v).bind _ = _
      unfold World.valueString
      simp only [hgrab, hread, hrel, Option.bind_eq_bind, Option.bind_some, Option.pure_def]
      rfl

/-! ## §3. The array part. -/

/-- The key of the array index `i`. -/
def indexKey (i : Nat) : Key := .num (UInt64.ofNat i)

/-- What the `i`-th round yields. -/
def Store.indexEntry (s : Store) (i : Nat) : LuaValue × LuaValue :=
  (.number (Binary64.ofNat i), s.luaValue (indexKey i))

/-- `_ipairsaux` of a table whose next index can be read. -/
theorem World.ipairsaux_eq {control : Word} {tmp : Value} {n i : Int} {j : Nat}
    (hn : luaToInteger control = some n) (hi : asInt n = i) (hne : i ≠ 2147483647)
    (hj : asSize (i + 1) = j) {v : LuaValue}
    (hread : ((w.getType t (.num (UInt64.ofNat j)) tmp).bind fun r => r.2.getValue r.1.1 r.1.2)
      = some (.ok v, w')) :
    w.ipairsaux t control tmp
      = some (.ok (if v = .nil then none else some (.number (Binary64.ofInt (i + 1)), v)), w') := by
  subst hi hj
  obtain ⟨⟨⟨ttype, tv⟩, w₁⟩, hget, hval⟩ := Option.bind_eq_some_iff.mp hread
  have hval : w₁.getValue ttype tv = some (.ok v, w') := hval
  unfold World.ipairsaux
  rw [hn, Option.bind_eq_bind, Option.bind_some, if_neg hne, hget]
  show (w₁.getValue ttype tv).bind _ = _
  rw [hval]
  cases v <;> rfl

/-- A call of the iterator after the index `i` reads the next one. -/
theorem World.Rep.ipairsaux (h : w.Rep t s tb m) (hshort : s.Short) {i : Nat}
    (hi : i < 2147483647) (tmp : Value) :
    w.ipairsaux t (Binary64.ofNat i) tmp
      = some (.ok (if s (indexKey (i + 1)) = none then none else some (s.indexEntry (i + 1))), w) := by
  have hint : asInt (i : Int) = i := asInt_of_small (by omega) (by omega)
  have hsize : asSize ((i : Int) + 1) = i + 1 := by
    rw [asSize_of_nonneg (by omega) (by omega)]
    omega
  have hname : Binary64.ofInt ((i : Int) + 1) = Binary64.ofNat (i + 1) := by
    have habs : ((i : Int) + 1).natAbs = i + 1 := by omega
    unfold Binary64.ofInt
    rw [if_neg (by omega), habs]
  rw [World.ipairsaux_eq (Binary64.truncate_ofNat (by omega)) hint (by omega) hsize
    (h.luaReads hshort (indexKey (i + 1)) tmp), hname]
  simp only [Store.luaValue_eq_nil, Store.indexEntry]

/-- From the index `i` on, the loop yields the indices before the next gap. -/
theorem World.Rep.ipairsLoop (h : w.Rep t s tb m) (hshort : s.Short) (tmp : Value) (n : Nat) :
    ∀ (i fuel : Nat), n < fuel → i + n < 2147483647 →
      (∀ j, i < j → j ≤ i + n → s (indexKey j) ≠ none) → s (indexKey (i + n + 1)) = none →
      World.ipairsLoop tmp fuel w t (.number (Binary64.ofNat i))
        = some (.ok ((List.range' (i + 1) n).map s.indexEntry), w) := by
  induction n with
  | zero =>
    intro i fuel hfuel hi _ hgap
    obtain ⟨fuel, rfl⟩ := Nat.exists_eq_succ_of_ne_zero (Nat.ne_of_gt hfuel)
    have hgap : s (indexKey (i + 1)) = none := hgap
    rw [World.ipairsLoop, h.ipairsaux hshort (by omega), if_pos hgap]
    rfl
  | succ n ih =>
    intro i fuel hfuel hi hthere hgap
    obtain ⟨fuel, rfl⟩ := Nat.exists_eq_succ_of_ne_zero (show fuel ≠ 0 by omega)
    rw [Nat.succ_lt_succ_iff] at hfuel
    rw [World.ipairsLoop, h.ipairsaux hshort (by omega), if_neg (hthere (i + 1) (by omega) (by omega))]
    -- the next call starts from the index that was yielded
    have hgap : s (indexKey (i + 1 + n + 1)) = none := by
      rw [show i + 1 + n = i + (n + 1) by omega]
      exact hgap
    have hrest := ih (i + 1) fuel hfuel (by omega) (fun j hj hle => hthere j (by omega) (by omega)) hgap
    simp only [Option.bind_eq_bind, Option.bind_some, Store.indexEntry]
    rw [hrest]
    rfl

/-- `ipairs` yields 1, 2, … with their values up to the first gap, and no
more. -/
theorem World.Rep.luaIpairs (h : w.Rep t s tb m) (hshort : s.Short) (tmp : Value)
    (hgap : ∃ g, 1 ≤ g ∧ g ≤ 2147483647 ∧ s (indexKey g) = none) :
    ∃ n, w.luaIpairs t tmp = some (.ok ((List.range' 1 n).map s.indexEntry), w)
      ∧ (∀ j, 1 ≤ j → j ≤ n → s (indexKey j) ≠ none) ∧ s (indexKey (n + 1)) = none := by
  classical
  obtain ⟨hpos, hle, hnone⟩ := Nat.find_spec hgap
  have hmin : ∀ j, 1 ≤ j → j < Nat.find hgap → s (indexKey j) ≠ none := by
    intro j hj hlt hj0
    exact Nat.find_min hgap hlt ⟨hj, by omega, hj0⟩
  generalize Nat.find hgap = g at hpos hle hnone hmin
  obtain ⟨n, rfl⟩ := Nat.exists_eq_succ_of_ne_zero (Nat.ne_of_gt hpos)
  have hthere : ∀ j, 0 < j → j ≤ 0 + n → s (indexKey j) ≠ none :=
    fun j hj hjn => hmin j hj (by omega)
  have hend : s (indexKey (0 + n + 1)) = none := by rwa [Nat.zero_add]
  exact ⟨n, h.ipairsLoop hshort tmp n 0 2147483648 (by omega) (by omega) hthere hend,
    fun j hj hjn => hmin j hj (Nat.lt_succ_of_le hjn), hnone⟩

/-! ## §4. The snapshot. -/

/-- The pair that the loop yields for a key. -/
def Store.luaEntry (s : Store) (key : Key) : LuaValue × LuaValue := (key.luaName, s.luaValue key)

/-- The snapshot of the table takes in `n` keys: the capacity is an `int`, and
`keys` stops one below it. -/
def World.Room (w : World) (t : Addr) (n : Nat) : Prop :=
  ∃ m, w.current t = some m ∧ m.size * maxHashDepth < 2147483648 ∧ (n : Int) < m.size * maxHashDepth

/-- `pairs` yields every key once, with its value. -/
theorem World.Rep.pairsAll (h : w.Rep t s tb m) (htidy : w.Tidy) (hshort : s.Short) {keys : List Key}
    (hnodup : keys.Nodup) (hkeys : ∀ key, key ∈ keys ↔ s key ≠ none) (hroom : w.Room t keys.length)
    (tmp : Value) :
    ∃ ps, w.pairsAll t tmp = some (.ok ps, w) ∧ ps.Perm (keys.map s.luaEntry) := by
  -- the nodes stand for the keys, in the order of the buckets
  have hperm : (m.entries.filterMap Node.storedKey).Perm keys := by
    rw [List.perm_ext_iff_of_nodup h.inv.nodup hnodup]
    intro key
    rw [hkeys, List.mem_filterMap]
    constructor
    · rintro ⟨n, hn, hk⟩ hnone
      obtain ⟨key', a, hk', ha, -⟩ := h.of_node hn
      rw [hk] at hk'
      cases hk'
      rw [hnone] at ha
      cases ha
    · intro hne
      obtain ⟨a, ha⟩ := Option.ne_none_iff_exists'.mp hne
      obtain ⟨v, hv, -⟩ := h.view_some ha
      obtain ⟨n, hn, -⟩ := Option.map_eq_some_iff.mp hv
      exact ⟨n, (LMap.find_mem hn).1, (LMap.find_mem hn).2⟩
  have hlen : m.entries.length = keys.length := by
    have hcount := congrArg List.length h.inv.storedKeys_some
    rw [List.length_map, List.length_map] at hcount
    rw [hcount, hperm.length_eq]
  obtain ⟨m', hcur, hint, hlt⟩ := hroom
  rw [h.toOwns.current] at hcur
  cases hcur
  have hcap := h.inv.toWf.capacity_eq
  -- so the snapshot holds all of them
  have hsnap := (h.sound htidy).luaPairs_eq hint
  unfold LMap.takeRecords at hsnap
  rw [List.take_of_length_le (by omega), Nat.min_eq_left (by omega)] at hsnap
  have hread : ∀ w₁ : World, w₁ = w → ∀ key ∈ m.entries.filterMap Node.storedKey,
      ∃ w₂, ((w₁.getType t key tmp).bind fun r => r.2.getValue r.1.1 r.1.2)
        = some (.ok (s.luaValue key), w₂) ∧ w₂ = w := by
    rintro w₁ rfl key -
    exact ⟨w₁, h.luaReads hshort key tmp, rfl⟩
  obtain ⟨hto, hnames⟩ := luaName_records h.inv.toWf.node h.inv.storedKeys_some
  have hnil : LuaValue.nil.IsControl := trivial
  obtain ⟨w', hloop, rfl⟩ := World.pairsLoop_of_reads _ hread 0
    ⟨m.entries.length, 0, m.entries.map Node.record⟩ rfl hnil rfl
    (by simp) rfl hto hnames (m.entries.length + 1)
    (by rw [hperm.length_eq, hlen]; exact Nat.lt_succ_self _)
  refine ⟨_, ?_, hperm.map s.luaEntry⟩
  unfold World.pairsAll
  rw [hsnap]
  simp only [Option.bind_eq_bind, Option.bind_some, List.length_map]
  exact hloop

/-! ## §5. The loops in a session. -/

/-- Short arguments leave short strings. -/
theorem lastSet_short {calls : List SetCall} (h : ∀ c ∈ calls, c.arg.Short) :
    Store.Short (lastSet calls) := by
  intro key a ha
  obtain ⟨c, hc, -, rfl⟩ := lastSet_mem ha
  exact h c hc

variable {steps : List SessionStep} {os : List Int} {S : SessionState}

/-- In a session `ipairs` over any live table ends, changes nothing, and yields
the last values set under 1, 2, … up to the first index that was not set. -/
theorem session_ipairs (hp : Run.Along SessionState.step SessionState.Proper .start steps)
    (hx : Run.run SessionState.step .start steps = some (os, S)) (ht : t ∈ S.live)
    (hshort : Store.Short (lastSet (callsOn t steps)))
    (hgap : ∃ g, 1 ≤ g ∧ g ≤ 2147483647 ∧ lastSet (callsOn t steps) (indexKey g) = none)
    (tmp : Value) :
    ∃ n, S.w.luaIpairs t tmp
        = some (.ok ((List.range' 1 n).map (Store.indexEntry (lastSet (callsOn t steps)))), S.w)
      ∧ (∀ j, 1 ≤ j → j ≤ n → lastSet (callsOn t steps) (indexKey j) ≠ none)
      ∧ lastSet (callsOn t steps) (indexKey (n + 1)) = none := by
  obtain ⟨tb, m, hrep, -⟩ := (SessionState.inv_of_run hp hx).rep t ht
  exact hrep.luaIpairs hshort tmp hgap

/-- A table with the indices 1, 2 and 4, and a name. -/
def gapSession : List SessionStep :=
  [.create, .set 1 ⟨indexKey 2, .number 7, .blank⟩, .set 1 ⟨indexKey 1, .string [97], .blank⟩,
    .set 1 ⟨indexKey 4, .boolean 1, .blank⟩, .set 1 ⟨.str [120], .number 9, .blank⟩]

/-- The loop over it. -/
theorem session_ipairs_gap :
    ∃ (S : SessionState) (n : Nat), S.w.luaIpairs 1 .blank
        = some (.ok ((List.range' 1 n).map (Store.indexEntry (lastSet (callsOn 1 gapSession)))), S.w)
      ∧ (∀ j, 1 ≤ j → j ≤ n → lastSet (callsOn 1 gapSession) (indexKey j) ≠ none)
      ∧ lastSet (callsOn 1 gapSession) (indexKey (n + 1)) = none := by
  have hgo : (Run.run SessionState.step .start gapSession).map
      (fun p => decide (1 ∈ p.2.live)) = some true := by decide +kernel
  obtain ⟨⟨os, S⟩, hrun, hlive⟩ := Option.map_eq_some_iff.mp hgo
  exact ⟨S, session_ipairs (by decide +kernel) hrun (of_decide_eq_true hlive)
    (lastSet_short (by decide)) ⟨3, by decide, by decide, by decide +kernel⟩ .blank⟩

/-- In a session `pairs` over any live table whose keys the snapshot takes in ends,
changes nothing, and yields every key that was set once, with the last value
set under it. -/
theorem session_pairs (hp : Run.Along SessionState.step SessionState.Proper .start steps)
    (hx : Run.run SessionState.step .start steps = some (os, S)) (ht : t ∈ S.live)
    (hshort : Store.Short (lastSet (callsOn t steps)))
    (hroom : S.w.Room t (distinctKeys (callsOn t steps)).length) (tmp : Value) :
    ∃ ps, S.w.pairsAll t tmp = some (.ok ps, S.w)
      ∧ ps.Perm ((distinctKeys (callsOn t steps)).map
          (Store.luaEntry (lastSet (callsOn t steps)))) := by
  have hinv := SessionState.inv_of_run hp hx
  obtain ⟨tb, m, hrep, -⟩ := hinv.rep t ht
  exact hrep.pairsAll hinv.tidy hshort (List.nodup_dedup _) (fun key => mem_distinctKeys) hroom tmp

/-- All four keys of the table. -/
theorem session_pairs_gap :
    ∃ (S : SessionState) (ps : List (LuaValue × LuaValue)),
      S.w.pairsAll 1 .blank = some (.ok ps, S.w)
      ∧ ps.Perm ((distinctKeys (callsOn 1 gapSession)).map
          (Store.luaEntry (lastSet (callsOn 1 gapSession)))) := by
  have hgo : (Run.run SessionState.step .start gapSession).map
      (fun p => (decide (1 ∈ p.2.live), (p.2.w.current 1).map LMap.size)) = some (true, some 29) := by
    decide +kernel
  obtain ⟨⟨os, S⟩, hrun, hgo⟩ := Option.map_eq_some_iff.mp hgo
  obtain ⟨hlive, hsize⟩ := Prod.mk.inj hgo
  obtain ⟨m, hm, hsize⟩ := Option.map_eq_some_iff.mp hsize
  have hfew : ((distinctKeys (callsOn 1 gapSession)).length : Int) < 29 * maxHashDepth := by
    decide +kernel
  exact ⟨S, session_pairs (by decide +kernel) hrun (of_decide_eq_true hlive)
    (lastSet_short (by decide)) ⟨m, hm, by rw [hsize]; decide, by rw [hsize]; exact hfew⟩ .blank⟩

end LightTable
