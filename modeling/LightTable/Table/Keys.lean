/-
  LightTable.Table.Keys
  ─────────────────────
  `keys` on the caller's array.

  The loop counts in a `size_t` but indexes the array with the `int`
  `record_index`.  Up to 2^31 records are written one after the other, in
  bucket order and chain order, and the call gives back the map on both ways
  out.  The next index is -2^31 (`writeRecord_outside`).  So the call fills the array
  as it should exactly when it has at most 2^31 records to write
  (`keys_fills_iff`), and a table can have more (`onePastCalls_reach`).
-/
import LightTable.Table.NumericKeys
import LightTable.Table.Effects

namespace LightTable

variable {w w₀ w₁ : World} {t : Addr} {tb : Table} {m : LMap}

/-! ## §1. An array that is filled. -/

/-- The records that a call with capacity `cap` has to write. -/
def LMap.firstRecords (m : LMap) (cap : Nat) : List TableKey :=
  (m.entries.take (cap - 1)).map Node.record

/-- The call returns how many records there are, writes them from index 0 on and
nothing else, and leaves the table and its counters as they were; the records
name different keys, and each the type that looking its key up gives. -/
structure World.FillsKeys (w : World) (t : Addr) (m : LMap) (vv : List TableKey) (cap : Nat) :
    Prop where
  call : w.keysInto t vv cap = some (min m.entries.length (cap - 1),
    m.firstRecords cap ++ vv.drop (min m.entries.length (cap - 1)), w)
  count : (m.firstRecords cap).length = min m.entries.length (cap - 1)
  differ : ((m.firstRecords cap).map TableKey.toKey).Nodup
  present : ∀ r ∈ m.firstRecords cap, ∃ key, r.toKey = some key ∧ r.type ≠ .nil
    ∧ ∀ tmp, ∃ v, w.getType t key tmp = some ((r.type, v), w)

theorem LMap.length_firstRecords (m : LMap) (cap : Nat) :
    (m.firstRecords cap).length = min m.entries.length (cap - 1) := by
  unfold LMap.firstRecords
  rw [List.length_map, List.length_take, Nat.min_comm]

/-- The keys of the nodes are different. -/
theorem LMap.Inv.nodup_storedKey (hm : m.Inv) : (m.entries.map Node.storedKey).Nodup := by
  rw [hm.storedKeys_some]
  exact hm.nodup.map (fun _ _ h => Option.some.inj h)

theorem LMap.Inv.firstRecords_differ (hm : m.Inv) (cap : Nat) :
    ((m.firstRecords cap).map TableKey.toKey).Nodup := by
  have hnode : ∀ n ∈ m.entries.take (cap - 1), n.Wf :=
    fun n hn => hm.node n (List.mem_of_mem_take hn)
  unfold LMap.firstRecords
  rw [toKey_records hnode, List.map_take]
  exact hm.nodup_storedKey.sublist (List.take_sublist _ _)

/-- A record shows the type that is found under its key. -/
theorem World.Sound.record_present (h : w.Sound t tb m) (hm : m.Inv) {cap : Nat} {r : TableKey}
    (hr : r ∈ m.firstRecords cap) : ∃ key, r.toKey = some key ∧ r.type ≠ .nil
      ∧ ∀ tmp, ∃ v, w.getType t key tmp = some ((r.type, v), w) := by
  obtain ⟨n, hn, rfl⟩ := List.mem_map.mp hr
  have hmem : n ∈ m.entries := List.mem_of_mem_take hn
  obtain ⟨key, hkey, hfind⟩ := hm.find_node hmem
  refine ⟨key, ?_, ?_, ?_⟩
  · rw [(hm.node n hmem).toKey_record]
    exact hkey
  · rw [n.record_type]
    exact hm.type n hmem
  · intro tmp
    refine ⟨n.v.v, ?_⟩
    rw [h.toOwns.getType h.wf, n.record_type]
    unfold LMap.view
    rw [hfind]
    rfl

/-- The call fills the array exactly when the numbers of its records are all
`int`s. -/
theorem World.Sound.fillsKeys_iff (h : w.Sound t tb m) (hm : m.Inv) {cap : Nat} (hcap : 1 ≤ cap)
    (h64 : cap < 18446744073709551616) {vv : List TableKey} (hvv : vv.length = cap) :
    w.FillsKeys t m vv cap ↔ min m.entries.length (cap - 1) ≤ 2147483648 := by
  have hlimit : keysLimit cap = cap - 1 := by
    unfold keysLimit
    omega
  have hrecords : m.takeRecords (cap - 1) = m.firstRecords cap := rfl
  have heq := h.toOwns.keysInto h.wf vv cap
  rw [hlimit, hrecords, m.length_firstRecords] at heq
  have hroom : min m.entries.length (cap - 1) ≤ recordRoom vv
      ↔ min m.entries.length (cap - 1) ≤ 2147483648 := by
    unfold recordRoom
    omega
  constructor
  · intro hfill
    by_contra hover
    rw [if_neg (fun hle => hover (hroom.mp hle)), hfill.call] at heq
    exact absurd heq (by simp)
  · intro hle
    rw [if_pos (hroom.mpr hle)] at heq
    exact ⟨heq, m.length_firstRecords cap, hm.firstRecords_differ cap,
      fun r hr => h.record_present hm hr⟩

/-! ## §2. A table with more keys than an `int` counts. -/

/-- `set_number` of the index `i`. -/
def indexCall (i : Nat) : SetCall := ⟨.num (UInt64.ofNat i), .number 0, .blank⟩

/-- The indices below `n`, one after the other. -/
def manyCalls (n : Nat) : List SetCall := (List.range n).map indexCall

/-- One key more, a string. -/
def onePastCalls (n : Nat) : List SetCall := manyCalls n ++ [⟨.str [], .number 0, .blank⟩]

theorem mem_onePastCalls {n : Nat} {c : SetCall} (h : c ∈ onePastCalls n) :
    (∃ j, j < n ∧ c = indexCall j) ∨ c = ⟨.str [], .number 0, .blank⟩ := by
  rcases List.mem_append.mp h with h | h
  · obtain ⟨j, hj, rfl⟩ := List.mem_map.mp h
    exact Or.inl ⟨j, List.mem_range.mp hj, rfl⟩
  · exact Or.inr (List.mem_singleton.mp h)

theorem indexCall_short {n : Nat} (hn : n ≤ 2147483648) {j : Nat} (hj : j < n) :
    (indexCall j).key.Short := by
  show (UInt64.ofNat j).toNat < 2147483648
  rw [UInt64.toNat_ofNat']
  omega

theorem onePastCalls_short {n : Nat} (hn : n ≤ 2147483648) :
    ∀ c ∈ onePastCalls n, c.key.Short := by
  intro c hc
  rcases mem_onePastCalls hc with ⟨j, hj, rfl⟩ | rfl
  · exact indexCall_short hn hj
  · show ([] : Bytes).length < 2147483648
    decide

/-- All the values are numbers. -/
theorem onePastCalls_consistent (n : Nat) : Consistent (onePastCalls n) := by
  refine List.Pairwise.imp_of_mem ?_ (List.pairwise_of_forall (R := fun _ _ => True) (fun _ _ => trivial))
  intro c c' hc hc' _ _
  have htype : ∀ c ∈ onePastCalls n, c.arg.type = .number := by
    intro c hc
    rcases mem_onePastCalls hc with ⟨j, -, rfl⟩ | rfl <;> rfl
  rw [htype c hc, htype c' hc']

theorem length_onePastCalls {n : Nat} (hn : n ≤ 2147483648) :
    (distinctKeys (onePastCalls n)).length = n + 1 := by
  have hnodup : ((onePastCalls n).map SetCall.key).Nodup := by
    unfold onePastCalls
    rw [List.map_append, List.nodup_append']
    refine ⟨?_, List.nodup_singleton _, ?_⟩
    · unfold manyCalls
      rw [List.map_map]
      refine List.Nodup.map_on ?_ List.nodup_range
      intro i hi j hj hij
      have hi := List.mem_range.mp hi
      have hj := List.mem_range.mp hj
      have hidx : UInt64.ofNat i = UInt64.ofNat j := Key.num.inj hij
      have hnat := congrArg UInt64.toNat hidx
      rw [UInt64.toNat_ofNat', UInt64.toNat_ofNat'] at hnat
      omega
    · intro k hk hk'
      obtain ⟨c, hc, rfl⟩ := List.mem_map.mp hk
      obtain ⟨j, -, rfl⟩ := List.mem_map.mp hc
      exact absurd (List.mem_singleton.mp hk') (by simp [indexCall])
  unfold distinctKeys
  rw [hnodup.dedup]
  unfold onePastCalls manyCalls
  simp

/-- Setting that many keys goes through. -/
theorem onePastCalls_reach {n : Nat} (hn : n ≤ 2147483648) :
    ∃ (t : Addr) (w₀ w₁ : World) (rs : List Int) (tb : Table) (m : LMap),
      World.empty.newTable = some (t, w₀) ∧ w₀.setAll t (onePastCalls n) = some (rs, w₁)
      ∧ w₁.Sound t tb m ∧ m.Inv ∧ m.entries.length = n + 1 := by
  have hsome : World.empty.newTable.isSome = true := by decide
  obtain ⟨⟨t, w₀⟩, hnew⟩ := Option.isSome_iff_exists.mp hsome
  obtain ⟨tb₀, hrep₀⟩ := World.Rep.newTable hnew
  obtain ⟨tb₁, h₀⟩ := World.Sound.newTable World.empty_tidy hnew
  have hshort := onePastCalls_short hn
  have htypes := onePastCalls_consistent n
  have hnum : ∀ c ∈ manyCalls n, ∃ idx, c.key = .num idx := by
    intro c hc
    obtain ⟨j, -, rfl⟩ := List.mem_map.mp hc
    exact ⟨_, rfl⟩
  -- the numeric keys first; then the string finds room whatever it walks past
  obtain ⟨rs, w, tb, m, hrun, hrep⟩ := hrep₀.setAll_num (manyCalls n) hnum
    (fun c hc => (hshort c (List.mem_append.mpr (Or.inl hc))).fits)
    (htypes.sublist (List.sublist_append_left _ _))
  have hroom := hrep.bucketsAsked_lt (lastSet_num hnum) ⟨.str [], .number 0, .blank⟩
  obtain ⟨w₁, tb', m', hset, hrep', -⟩ := hrep.set (c := ⟨.str [], .number 0, .blank⟩)
    (show (Key.str []).Fits by decide) htypes.accepts hroom
  have hall : w₀.setAll t (onePastCalls n) = some (rs ++ [0], w₁) :=
    (Run.run_snoc_some _).mpr ⟨rs, w, 0, hrun, hset, rfl⟩
  rw [← lastSet_snoc] at hrep'
  obtain ⟨tb₂, m₂, h₂⟩ := h₀.setAll hall
  have hm : m₂ = m' := Option.some.inj (h₂.toOwns.current.symm.trans hrep'.toOwns.current)
  subst hm
  refine ⟨t, w₀, w₁, _, tb₂, m₂, hnew, hall, h₂, hrep'.inv, ?_⟩
  have hperm : (m₂.entries.map Node.storedKey).Perm ((distinctKeys (onePastCalls n)).map some) :=
    hrep'.keys_perm
  have hlen := hperm.length_eq
  rw [List.length_map, List.length_map, length_onePastCalls hn] at hlen
  exact hlen

/-! ## §3. The result. -/

/-- `keys` of every table that calls with short keys reach, at every capacity. -/
theorem keys_fills_iff {calls : List SetCall} {rs : List Int} (hw : w.Tidy)
    (hnew : w.newTable = some (t, w₀)) (hk : ∀ c ∈ calls, c.key.Short)
    (hrun : w₀.setAll t calls = some (rs, w₁)) (cap : Nat) (hcap : 1 ≤ cap)
    (h64 : cap < 18446744073709551616) (vv : List TableKey) (hvv : vv.length = cap) :
    ∃ m, w₁.current t = some m
      ∧ (w₁.FillsKeys t m vv cap ↔ min m.entries.length (cap - 1) ≤ 2147483648) := by
  obtain ⟨tb₀, h₀⟩ := World.Sound.newTable hw hnew
  obtain ⟨tb, m, h, hm, -⟩ := h₀.setAll_inv LMap.new_inv (fun c hc => (hk c hc).fits) hrun
  exact ⟨m, h.toOwns.current, h.fillsKeys_iff hm hcap h64 hvv⟩

/-- Two keys and room for one record. -/
theorem keys_fills_iff_one :
    ∃ (t : Addr) (w₀ w₁ : World) (m : LMap) (rs : List Int) (vv : List TableKey),
      World.empty.newTable = some (t, w₀)
      ∧ w₀.setAll t [⟨.num 1, .number 5, .blank⟩, ⟨.str [97], .boolean 1, .blank⟩] = some (rs, w₁)
      ∧ w₁.current t = some m
      ∧ (w₁.FillsKeys t m vv 2 ↔ min m.entries.length (2 - 1) ≤ 2147483648) := by
  have hall : (World.empty.newTable.bind fun p =>
      (p.2.setAll p.1 [⟨.num 1, .number 5, .blank⟩, ⟨.str [97], .boolean 1, .blank⟩]).map
        Prod.fst) = some [0, 0] := by decide
  obtain ⟨⟨t, w₀⟩, hnew, hall⟩ := Option.bind_eq_some_iff.mp hall
  obtain ⟨⟨rs, w₁⟩, hrun, -⟩ := Option.map_eq_some_iff.mp hall
  set vv : List TableKey := List.replicate 2 ⟨.nil, none, 0⟩ with hvv
  obtain ⟨m, hm, hiff⟩ := keys_fills_iff World.empty_tidy hnew (by decide) hrun 2 (by decide)
    (by decide) vv rfl
  exact ⟨t, w₀, w₁, m, rs, vv, hnew, hrun, hm, hiff⟩

/-- A table with 2^31 + 1 keys and room for all of them. -/
theorem keys_index_negative :
    ∃ (t : Addr) (w₀ w₁ : World) (m : LMap) (rs : List Int) (vv : List TableKey),
      World.empty.newTable = some (t, w₀)
      ∧ (∀ c ∈ onePastCalls 2147483648, c.key.Short)
      ∧ w₀.setAll t (onePastCalls 2147483648) = some (rs, w₁) ∧ w₁.current t = some m
      ∧ vv.length = 2147483650 ∧ ¬ w₁.FillsKeys t m vv 2147483650 := by
  obtain ⟨t, w₀, w₁, rs, tb, m, hnew, hrun, h, hm, hlen⟩ :=
    onePastCalls_reach (Nat.le_refl 2147483648)
  have hvv : (List.replicate 2147483650 (⟨.nil, none, 0⟩ : TableKey)).length = 2147483650 :=
    List.length_replicate
  refine ⟨t, w₀, w₁, m, rs, _, hnew, onePastCalls_short (Nat.le_refl _), hrun, h.toOwns.current,
    hvv, ?_⟩
  rw [h.fillsKeys_iff hm (by omega) (by omega) hvv, hlen]
  omega

end LightTable
