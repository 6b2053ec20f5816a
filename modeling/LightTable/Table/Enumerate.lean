/-
  LightTable.Table.Enumerate
  ──────────────────────────
  `keys` with the capacity `size` gives.

  `size` is the bucket count times `MAX_HASH_DEPTH`, a product taken in `int`;
  `keys` stops at `cap - 1` records.  So one record is lost when the table
  holds `size()` keys, which the expansion policy does not rule out: a bucket
  may hold `MAX_HASH_DEPTH` nodes before the next insert walks past them all.
-/
import LightTable.Table.FailedSet
import LightTable.Table.Correctness
import Mathlib.Data.List.Dedup
import Mathlib.Data.List.Induction

namespace LightTable

open ChainedHash

variable {w : World} {t : Addr} {tb : Table} {m : LMap}

/-! ## §1. What `size` and `keys` give. -/

theorem intMul_eq {a b : Int} (h0 : -2147483648 ≤ a * b) (h : a * b < 2147483648) :
    intMul a b = some (a * b) := if_pos ⟨h0, h⟩

theorem of_intMul {a b s : Int} (h : intMul a b = some s) : s = a * b ∧ a * b < 2147483648 := by
  unfold intMul at h
  split at h
  next hle => exact ⟨(Option.some.inj h).symm, hle.2⟩
  next => exact absurd h (by simp)

/-- `size`, for a map of `buckets` buckets. -/
def capacity (buckets : Int) : Nat := asSize (buckets * maxHashDepth)

theorem World.Owns.size_eq (h : w.Owns t tb m) :
    w.size t = (intMul m.size maxHashDepth).map (fun s => (asSize s, w)) := by
  unfold World.size
  simp only [h.grabMap, Option.bind_eq_bind, Option.bind_some, World.putTable_tables_self,
    Table.putMap_self, h.releaseMap]
  cases intMul m.size maxHashDepth <;> rfl

/-- `size`, when its product is an `int`. -/
theorem World.Owns.size (h : w.Owns t tb m) (hm : m.Wf) (hs : m.size * maxHashDepth < 2147483648) :
    w.size t = some (capacity m.size, w) := by
  have hpos := hm.pos
  rw [h.size_eq, intMul_eq (by unfold maxHashDepth; omega) hs]
  rfl

theorem World.Owns.of_size (h : w.Owns t tb m) {cap : Nat} {w' : World}
    (hx : w.size t = some (cap, w')) :
    cap = capacity m.size ∧ w' = w ∧ m.size * maxHashDepth < 2147483648 := by
  rw [h.size_eq] at hx
  obtain ⟨s, hs, hx⟩ := Option.map_eq_some_iff.mp hx
  obtain ⟨rfl, hlt⟩ := of_intMul hs
  cases hx
  exact ⟨rfl, rfl, hlt⟩

/-- The capacity of a table is not zero. -/
theorem LMap.Wf.capacity_pos (hm : m.Wf) : 0 < capacity m.size := by
  have hpos := hm.pos
  have hlt := hm.lt
  unfold capacity asSize maxHashDepth
  omega

theorem LMap.Wf.capacity_eq (hm : m.Wf) : (capacity m.size : Int) = m.size * maxHashDepth := by
  have hpos := hm.pos
  have hlt := hm.lt
  unfold capacity asSize maxHashDepth
  omega

theorem LMap.Wf.keysLimit_capacity (hm : m.Wf) :
    keysLimit (capacity m.size) = capacity m.size - 1 := by
  have hpos := hm.capacity_pos
  have hlt := asSize_lt (m.size * maxHashDepth)
  unfold keysLimit
  change capacity m.size < _ at hlt
  omega

/-- The nested loop is one loop over the nodes in bucket order. -/
theorem keysChains_flatten (limit : Nat) (chains : List (List Node)) :
    ∀ (count : Nat) (vv : List TableKey),
      keysChains limit chains count vv = keysChain limit chains.flatten count vv := by
  -- a chain first, then the rest
  have happ : ∀ (l l' : List Node) (count : Nat) (vv : List TableKey),
      keysChain limit (l ++ l') count vv
        = (keysChain limit l count vv).bind (fun x =>
            if x.1 then some (true, x.2.1, x.2.2) else keysChain limit l' x.2.1 x.2.2) := by
    intro l l'
    induction l with
    | nil =>
      intro count vv
      rfl
    | cons n rest ih =>
      intro count vv
      rw [List.cons_append, keysChain, keysChain]
      by_cases h : limit ≤ count
      · rw [if_pos h, if_pos h]
        rfl
      · rw [if_neg h, if_neg h]
        cases hw : writeRecord vv (asInt count) n.record with
        | none => rfl
        | some vv' => exact ih (count + 1) vv'
  induction chains with
  | nil =>
    intro count vv
    rfl
  | cons chain rest ih =>
    intro count vv
    rw [List.flatten_cons, happ]
    unfold keysChains
    show (keysChain limit chain count vv).bind _ = _
    cases keysChain limit chain count vv with
    | none => rfl
    | some x =>
      obtain ⟨early, count', vv'⟩ := x
      cases early with
      | true => rfl
      | false => exact ih count' vv'

/-- The array once the records `rs` were written from index `i` on. -/
def overwriteAt (vv : List TableKey) (i : Nat) (rs : List TableKey) : List TableKey :=
  vv.take i ++ rs ++ vv.drop (i + rs.length)

theorem overwriteAt_nil (vv : List TableKey) (i : Nat) : overwriteAt vv i [] = vv := by
  unfold overwriteAt
  rw [List.append_nil]
  exact List.take_append_drop i vv

/-- A record behind those that were written. -/
theorem take_set_succ {vv : List TableKey} {i : Nat} (hi : i < vv.length) (r : TableKey) :
    (vv.set i r).take (i + 1) = vv.take i ++ [r] := by
  rw [List.take_succ_eq_append_getElem (by rw [List.length_set]; exact hi), List.take_set,
    List.set_eq_of_length_le (by rw [List.length_take]; omega), List.getElem_set_self]

/-- One record, then the rest behind it. -/
theorem overwriteAt_cons {vv : List TableKey} {i : Nat} (hi : i < vv.length) (r : TableKey)
    (rs : List TableKey) :
    overwriteAt (vv.set i r) (i + 1) rs = overwriteAt vv i (r :: rs) := by
  unfold overwriteAt
  have hdrop : (vv.set i r).drop (i + 1 + rs.length) = vv.drop (i + (r :: rs).length) := by
    rw [List.drop_set_of_lt (by omega), List.length_cons]
    congr 1
    omega
  rw [take_set_succ hi, hdrop, List.append_assoc (vv.take i)]
  rfl

theorem writeRecord_small {vv : List TableKey} {count : Nat} (hlt : count < vv.length)
    (hint : count < 2147483648) (r : TableKey) :
    writeRecord vv (asInt count) r = some (vv.set count r) := by
  have hsame : asInt count = count := asInt_of_small (by omega) (by omega)
  unfold writeRecord
  rw [hsame, if_pos ⟨by omega, by omega⟩]
  rfl

/-- The record after 2^31 others goes to a negative index. -/
theorem writeRecord_outside {vv : List TableKey} {count : Nat} (hle : count ≤ 2147483648)
    (hout : vv.length ≤ count ∨ count = 2147483648) (r : TableKey) :
    writeRecord vv (asInt count) r = none := by
  unfold writeRecord
  refine if_neg (fun h => ?_)
  rcases hout with hout | rfl
  · by_cases hlast : count = 2147483648
    · rw [hlast] at h
      exact absurd h.1 (by decide)
    · rw [asInt_of_small (by omega) (by omega)] at h
      omega
  · exact absurd h.1 (by decide)

/-- How many records `keys` can write: those in the array, at indices that are
`int`s. -/
def recordRoom (vv : List TableKey) : Nat := min vv.length 2147483648

/-- A record behind the others, while there is room for one more. -/
theorem writeRecord_next {vv : List TableKey} {count : Nat} (h : count ≤ recordRoom vv)
    (r : TableKey) :
    writeRecord vv (asInt count) r = if count < recordRoom vv then some (vv.set count r) else none := by
  unfold recordRoom at *
  by_cases hroom : count < min vv.length 2147483648
  · rw [if_pos hroom]
    exact writeRecord_small (by omega) (by omega) r
  · rw [if_neg hroom]
    exact writeRecord_outside (by omega) (by omega) r

theorem recordRoom_set (vv : List TableKey) (count : Nat) (r : TableKey) :
    recordRoom (vv.set count r) = recordRoom vv := by
  unfold recordRoom
  rw [List.length_set]

/-- The loop writes a record for each of the first nodes, when there is room
for them all. -/
theorem keysChain_eq (limit : Nat) (l : List Node) :
    ∀ (count : Nat) (vv : List TableKey), count ≤ recordRoom vv →
      keysChain limit l count vv
        = if count + min l.length (limit - count) ≤ recordRoom vv then
            some (decide (limit - count < l.length), count + min l.length (limit - count),
              overwriteAt vv count ((l.take (limit - count)).map Node.record))
          else none := by
  induction l with
  | nil =>
    intro count vv hcount
    unfold keysChain
    simp [overwriteAt_nil, hcount]
  | cons n rest ih =>
    intro count vv hcount
    rw [keysChain]
    by_cases h : limit ≤ count
    · -- the limit is reached: the rest of the chain is left out
      have h0 : limit - count = 0 := by omega
      rw [if_pos h, h0, List.take_zero, List.map_nil, overwriteAt_nil, Nat.min_zero, Nat.add_zero,
        if_pos hcount]
      simp
    · rw [if_neg h, List.length_cons]
      have hmin : count + min (rest.length + 1) (limit - count)
          = count + 1 + min rest.length (limit - (count + 1)) := by omega
      rw [hmin]
      by_cases hroom : count < recordRoom vv
      · -- one record more, then the rest of the chain
        have hlt : count < vv.length := by
          unfold recordRoom at hroom
          omega
        have hsucc : limit - count = limit - (count + 1) + 1 := by omega
        have hdecide : decide (limit - count < rest.length + 1)
            = decide (limit - (count + 1) < rest.length) := by
          refine decide_eq_decide.mpr ?_
          omega
        rw [writeRecord_next hcount, if_pos hroom, Option.bind_eq_bind, Option.bind_some,
          ih (count + 1) _ (by rw [recordRoom_set]; omega), recordRoom_set, overwriteAt_cons hlt,
          hdecide, hsucc, List.take_succ_cons, List.map_cons]
      · -- this record is one too many
        rw [writeRecord_next hcount, if_neg hroom, if_neg (by omega)]
        rfl

/-- The records of the first `limit` nodes. -/
def LMap.takeRecords (m : LMap) (limit : Nat) : List TableKey :=
  (m.entries.take limit).map Node.record

theorem LMap.length_takeRecords (m : LMap) (limit : Nat) :
    (m.takeRecords limit).length = min m.entries.length limit := by
  unfold LMap.takeRecords
  rw [List.length_map, List.length_take, Nat.min_comm]

/-- The call, on any array. -/
theorem World.Owns.keysInto (h : w.Owns t tb m) (hm : m.Wf) (vv : List TableKey) (cap : Nat) :
    w.keysInto t vv cap
      = if (m.takeRecords (keysLimit cap)).length ≤ recordRoom vv then
          some ((m.takeRecords (keysLimit cap)).length,
            m.takeRecords (keysLimit cap) ++ vv.drop (m.takeRecords (keysLimit cap)).length, w)
        else none := by
  unfold World.keysInto
  generalize keysLimit cap = limit
  have hall : (m.data.take m.size.toNat).flatten = m.entries := by
    rw [hm.take_data]
    rfl
  have hloop := keysChain_eq limit m.entries 0 vv (Nat.zero_le _)
  rw [Nat.sub_zero, Nat.zero_add, ← m.length_takeRecords] at hloop
  have hbuf : overwriteAt vv 0 ((m.entries.take limit).map Node.record)
      = m.takeRecords limit ++ vv.drop (m.takeRecords limit).length := by
    unfold overwriteAt
    rw [List.take_zero, List.nil_append, Nat.zero_add]
    rfl
  have hgive : ((w.putTable t (tb.putMap tb.map { m with ref := 2 })).releaseMap t tb.map)
      = some w := h.releaseMap
  rw [h.grabMap, Option.bind_eq_bind, Option.bind_some]
  show ((w.putTable t (tb.putMap tb.map { m with ref := 2 })).tables t).bind _ = _
  rw [World.putTable_tables_self, Option.bind_some]
  show ((tb.putMap tb.map { m with ref := 2 }).maps tb.map).bind _ = _
  rw [Table.putMap_self, Option.bind_some]
  show (keysChains limit (m.data.take m.size.toNat) 0 vv).bind _ = _
  rw [keysChains_flatten, hall, hloop, hbuf]
  by_cases hroom : (m.takeRecords limit).length ≤ recordRoom vv
  · rw [if_pos hroom, if_pos hroom, Option.bind_some]
    -- both ways out give the map back
    cases decide (limit < m.entries.length) with
    | true =>
      show (World.releaseMap _ t tb.map).bind _ = _
      rw [hgive]
      rfl
    | false =>
      show (World.releaseMap _ t tb.map).bind _ = _
      rw [hgive]
      rfl
  · rw [if_neg hroom, if_neg hroom]
    rfl

theorem World.Owns.keys_eq (h : w.Owns t tb m) (hm : m.Wf) (cap : Nat) :
    w.keys t cap
      = if (m.takeRecords (keysLimit cap)).length ≤ min cap 2147483648 then some (m.takeRecords (keysLimit cap), w)
        else none := by
  unfold World.keys
  rw [h.keysInto hm, recordRoom, List.length_replicate]
  by_cases hroom : (m.takeRecords (keysLimit cap)).length ≤ min cap 2147483648
  · rw [if_pos hroom, if_pos hroom, Option.bind_eq_bind, Option.bind_some]
    generalize List.replicate cap TableKey.blank = vv
    show some ((m.takeRecords (keysLimit cap) ++ _).take (m.takeRecords (keysLimit cap)).length, w) = _
    rw [List.take_left]
  · rw [if_neg hroom, if_neg hroom]
    rfl

theorem World.Owns.of_keys (h : w.Owns t tb m) (hm : m.Wf) {cap : Nat} {records : List TableKey}
    {w' : World} (hx : w.keys t cap = some (records, w')) : records = m.takeRecords (keysLimit cap) ∧ w' = w := by
  rw [h.keys_eq hm] at hx
  by_cases hroom : (m.takeRecords (keysLimit cap)).length ≤ min cap 2147483648
  · rw [if_pos hroom, Option.some.injEq, Prod.mk.injEq] at hx
    exact ⟨hx.1.symm, hx.2.symm⟩
  · rw [if_neg hroom] at hx
    exact absurd hx (by simp)

/-- `keys` with the capacity of `size`: the array takes all its records in. -/
theorem World.Owns.keys_size (h : w.Owns t tb m) (hm : m.Wf)
    (hs : m.size * maxHashDepth < 2147483648) :
    w.keys t (capacity m.size) = some (m.takeRecords (keysLimit (capacity m.size)), w) := by
  have hcap := hm.capacity_eq
  rw [h.keys_eq hm, if_pos]
  rw [m.length_takeRecords, hm.keysLimit_capacity]
  omega

/-- A record names the key its node stores. -/
theorem Node.Wf.toKey_record {n : Node} (hn : n.Wf) : n.record.toKey = n.storedKey := by
  have hkind := hn.kind
  unfold Node.record TableKey.toKey Node.storedKey
  cases hs : n.strkey with
  | none =>
    rw [hs] at hkind
    simp [hkind]
  | some p =>
    rw [hs] at hkind
    simp [hkind]

theorem Node.record_type (n : Node) : n.record.type = n.v.type := by
  unfold Node.record
  split <;> rfl

theorem toKey_records {l : List Node} (hl : ∀ n ∈ l, n.Wf) :
    (l.map Node.record).map TableKey.toKey = l.map Node.storedKey := by
  rw [List.map_map]
  exact List.map_congr_left (fun n hn => (hl n hn).toKey_record)

/-! ## §2. The keys of a table. -/

/-- The distinct keys of a sequence of calls. -/
def distinctKeys (calls : List SetCall) : List Key := (calls.map SetCall.key).dedup

theorem mem_distinctKeys {calls : List SetCall} {key : Key} :
    key ∈ distinctKeys calls ↔ lastSet calls key ≠ none := by
  unfold distinctKeys
  rw [List.mem_dedup, Ne, lastSet_eq_none]
  simp

/-- The nodes of a table stand for the distinct keys that were set. -/
theorem World.Rep.keys_perm {calls : List SetCall} (h : w.Rep t (lastSet calls) tb m) :
    (m.entries.map Node.storedKey).Perm ((distinctKeys calls).map some) := by
  rw [h.inv.storedKeys_some]
  refine List.Perm.map some ?_
  have hnodup : (distinctKeys calls).Nodup := List.nodup_dedup _
  rw [List.perm_ext_iff_of_nodup h.inv.nodup hnodup]
  intro key
  rw [mem_distinctKeys, List.mem_filterMap]
  constructor
  · rintro ⟨n, hn, hk⟩ hnone
    obtain ⟨key', a, hk', ha, -⟩ := h.of_node hn
    rw [hk] at hk'
    cases hk'
    rw [hnone] at ha
    exact absurd ha (by simp)
  · intro hne
    obtain ⟨a, ha⟩ := Option.ne_none_iff_exists'.mp hne
    obtain ⟨v, hv, -⟩ := h.view_some ha
    obtain ⟨n, hn, -⟩ := Option.map_eq_some_iff.mp hv
    exact ⟨n, (LMap.find_mem hn).1, (LMap.find_mem hn).2⟩

/-! ## §3. Runs of successful calls. -/

/-- A call that gives 0 on a table in order was accepted, and did not outgrow
the bucket count. -/
theorem World.Rep.of_set_zero {s : Store} (h : w.Rep t s tb m) {c : SetCall} {w' : World}
    (hx : w.set t c = some (0, w')) : s.Accepts c ∧ w.bucketsAsked t c < 2147483648 := by
  have hlt := h.inv.toWf.lt
  unfold World.bucketsAsked
  rw [h.toOwns.current]
  -- a map that grew had room to
  have hgrown : (maxHashDepth ≤ m.depth c.key → m.CanGrow) →
      grownSize m.size (m.depth c.key) < 2147483648 := by
    intro hg
    unfold grownSize
    split
    next hd => exact hg hd
    next => exact hlt
  have haccepts : m.typeAt c.key = .nil ∨ m.typeAt c.key = c.arg.type → s.Accepts c := by
    intro hty a ha
    rw [h.typeAt, ha] at hty
    rcases hty with hty | hty
    · exact absurd hty a.type_ne_nil
    · exact hty
  by_cases hc : c.arg.type = .string
  · obtain ⟨str, hstr⟩ := Arg.eq_string hc
    cases hf : m.find c.key with
    | none =>
      -- a new string key
      have hnil := LMap.typeAt_absent hf
      rw [h.toOwns.set_inserts h.inv.toWf hstr hf] at hx
      obtain ⟨⟨type, w₁⟩, hins, -⟩ := Option.map_eq_some_iff.mp hx
      refine ⟨haccepts (Or.inl hnil), ?_⟩
      simp only [hnil, ne_eq, not_true_eq_false, and_false, if_false]
      refine hgrown (fun hd => ?_)
      have hown : (w.withString str).Owns t tb m :=
        h.toOwns.congr rfl (Nat.le_add_right _ 2)
      have hready := hown.of_insertTable h.inv.toWf (show LType.string ≠ .nil by decide) hins hd
      exact ((h.inv.toWf.ready_inserted c.key _ _).mp hready).1.room
    | some n =>
      -- a stored key keeps its type, or the call gives 1
      have hty := LMap.typeAt_found hf
      have hnn : n.v.type ≠ .nil := h.inv.toWf.type n (LMap.find_mem hf).1
      by_cases hstr' : n.v.type = .string
      · refine ⟨haccepts (Or.inr (by rw [hty, hstr', hc])), ?_⟩
        simp only [hc, hty, ne_eq, hnn, not_false_eq_true, and_self, if_true]
        exact hlt
      · rw [h.toOwns.set_refuses h.inv.toWf hstr hf hstr'] at hx
        have hcode : (1 : Int) = 0 := congrArg Prod.fst (Option.some.inj hx)
        exact absurd hcode (by decide)
  · -- the plain setters insert first and look at the old type afterwards
    rw [World.set_of_plain hc] at hx
    obtain ⟨⟨type, w₁⟩, hins, hx⟩ := Option.bind_eq_some_iff.mp hx
    have hready := h.toOwns.of_insertTable h.inv.toWf c.arg.type_ne_nil hins
    obtain ⟨w₂, tb', m', heq, -⟩ := h.toOwns.insertTable h.inv.toWf c.key c.arg.type_ne_nil hready
    rw [hins] at heq
    simp only [Option.some.injEq, Prod.mk.injEq] at heq
    obtain ⟨rfl, -⟩ := heq
    have hcode := congrArg Prod.fst (Option.some.inj hx)
    refine ⟨haccepts ?_, ?_⟩
    · by_cases h1 : m.typeAt c.key = .nil
      · exact Or.inl h1
      · by_cases h2 : m.typeAt c.key = c.arg.type
        · exact Or.inr h2
        · simp [h1, h2] at hcode
    · show (if c.arg.type = .string ∧ m.typeAt c.key ≠ .nil then m.size
        else grownSize m.size (m.depth c.key)) < 2147483648
      rw [if_neg (fun hs => hc hs.1)]
      exact hgrown (fun hd => ((h.inv.toWf.ready_inserted c.key _ _).mp (hready hd)).1.room)

/-- A run of successful calls with keys that fit represents the last values. -/
theorem World.Rep.of_setAll_zero {w₀ : World} {m₀ : LMap} (h : w₀.Rep t Store.empty tb m₀) :
    ∀ (calls : List SetCall) {rs : List Int} {w : World}, (∀ c ∈ calls, c.key.Fits) →
      w₀.setAll t calls = some (rs, w) → (∀ r ∈ rs, r = 0) →
      ∃ tb' m', w.Rep t (lastSet calls) tb' m' := by
  intro calls
  induction calls using List.reverseRecOn with
  | nil =>
    intro rs w _ hx _
    simp only [World.setAll, Run.run_nil, Option.some.injEq, Prod.mk.injEq] at hx
    obtain ⟨-, rfl⟩ := hx
    exact ⟨tb, m₀, h⟩
  | append_singleton pre c ih =>
    intro rs w hk hx hzero
    obtain ⟨rs₁, w₁, r, hpre, hset, rfl⟩ := (Run.run_snoc_some _).mp hx
    obtain ⟨tb₁, m₁, hrep⟩ := ih (fun c' hc' => hk c' (by simp [hc'])) hpre
      (fun r' hr' => hzero r' (by simp [hr']))
    have hr : r = 0 := hzero r (by simp)
    subst hr
    obtain ⟨hacc, hb⟩ := hrep.of_set_zero hset
    obtain ⟨w', tb', m', heq, hrep', -⟩ := hrep.set (hk c (by simp)) hacc hb
    have hw : w = w' := by
      have := Option.some.inj (hset.symm.trans heq)
      exact congrArg Prod.snd this
    subst hw
    rw [lastSet_snoc]
    exact ⟨tb', m', hrep'⟩

/-! ## §4. Enumeration. -/

/-- `size` is an `int`, and `keys` on an array of that many records writes
every key once. -/
def World.EnumeratesAll (w : World) (t : Addr) (keys : List Key) : Prop :=
  ∃ cap, w.size t = some (cap, w) ∧ ∀ vv : List TableKey, vv.length = cap →
    ∃ vv', w.keysInto t vv cap = some (keys.length, vv', w)
      ∧ ((vv'.take keys.length).map TableKey.toKey).Perm (keys.map some)

theorem LMap.Wf.toKey_takeRecords (hm : m.Wf) (limit : Nat) :
    (m.takeRecords limit).map TableKey.toKey = (m.entries.take limit).map Node.storedKey :=
  toKey_records (fun n hn => hm.node n (List.mem_of_mem_take hn))

/-- After successful calls the enumeration is complete exactly when every key
fits an `int`, and so does the capacity, and there are fewer keys than it. -/
theorem enumeratesAll_iff {w₀ w₁ : World} {calls : List SetCall} {rs : List Int} (hw : w.Tidy)
    (hnew : w.newTable = some (t, w₀)) (hrun : w₀.setAll t calls = some (rs, w₁))
    (hzero : ∀ r ∈ rs, r = 0) :
    ∃ m, w₁.current t = some m ∧ (w₁.EnumeratesAll t (distinctKeys calls)
      ↔ (∀ c ∈ calls, c.key.Fits) ∧ m.size * maxHashDepth < 2147483648
        ∧ ((distinctKeys calls).length : Int) < m.size * maxHashDepth) := by
  obtain ⟨tb₀, h₀⟩ := World.Sound.newTable hw hnew
  obtain ⟨tb, m, h⟩ := h₀.setAll hrun
  obtain ⟨tb₁, hrep₀⟩ := World.Rep.newTable hnew
  refine ⟨m, h.toOwns.current, ?_⟩
  have hcap := h.wf.capacity_eq
  have hpos := h.wf.capacity_pos
  have hinto := fun vv => h.toOwns.keysInto h.wf vv (capacity m.size)
  rw [h.wf.keysLimit_capacity] at hinto
  have hnamed := h.wf.toKey_takeRecords (capacity m.size - 1)
  have hlen := m.length_takeRecords (capacity m.size - 1)
  -- what the nodes store, and how many there are
  have hcount : (∀ c ∈ calls, c.key.Fits) → m.entries.length = (distinctKeys calls).length ∧
      (m.entries.map Node.storedKey).Perm ((distinctKeys calls).map some) := by
    intro hfit
    obtain ⟨tb', m', hrep⟩ := hrep₀.of_setAll_zero calls hfit hrun hzero
    have hm : m' = m := Option.some.inj (hrep.toOwns.current.symm.trans h.toOwns.current)
    subst hm
    exact ⟨by simpa using hrep.keys_perm.length_eq, hrep.keys_perm⟩
  constructor
  · rintro ⟨cap, hs, hall⟩
    obtain ⟨rfl, -, hint⟩ := h.toOwns.of_size hs
    obtain ⟨vv, hk, hperm⟩ := hall (List.replicate (capacity m.size) .blank) List.length_replicate
    rw [hinto] at hk
    split at hk
    next =>
      simp only [Option.some.injEq, Prod.mk.injEq] at hk
      obtain ⟨hn, rfl, -⟩ := hk
      rw [← hn, List.take_left, hnamed] at hperm
      have hfit : ∀ c ∈ calls, c.key.Fits := by
        intro c hc
        have hmem : some c.key ∈ (distinctKeys calls).map some := by
          refine List.mem_map.mpr ⟨c.key, ?_, rfl⟩
          exact List.mem_dedup.mpr (List.mem_map.mpr ⟨c, hc, rfl⟩)
        rw [← hperm.mem_iff] at hmem
        obtain ⟨n, hn, hkey⟩ := List.mem_map.mp hmem
        exact (h.wf.node n (List.mem_of_mem_take hn)).storedKey_fits hkey
      have hentries := (hcount hfit).1
      exact ⟨hfit, hint, by omega⟩
    next => exact absurd hk (by simp)
  · rintro ⟨hfit, hint, hlt⟩
    obtain ⟨hentries, hperm⟩ := hcount hfit
    have hall : m.entries.take (capacity m.size - 1) = m.entries :=
      List.take_of_length_le (by omega)
    have hn : (m.takeRecords (capacity m.size - 1)).length = (distinctKeys calls).length := by omega
    refine ⟨_, h.toOwns.size h.wf hint, fun vv hvv => ?_⟩
    refine ⟨m.takeRecords (capacity m.size - 1) ++ vv.drop (distinctKeys calls).length, ?_, ?_⟩
    · rw [hinto, if_pos (by unfold recordRoom; omega), hn]
    · rw [← hn, List.take_left, hnamed, hall]
      exact hperm

/-- The theorem at a table with one key. -/
theorem enumeratesAll_iff_one :
    ∃ t w₀ w₁ m, World.empty.newTable = some (t, w₀)
      ∧ w₀.setAll t [⟨.num 1, .number 5, .blank⟩] = some ([0], w₁) ∧ w₁.current t = some m
      ∧ (w₁.EnumeratesAll t (distinctKeys [⟨.num 1, .number 5, .blank⟩])
        ↔ (∀ c ∈ [(⟨.num 1, .number 5, .blank⟩ : SetCall)], c.key.Fits)
          ∧ m.size * maxHashDepth < 2147483648
          ∧ ((distinctKeys [⟨.num 1, .number 5, .blank⟩]).length : Int) < m.size * maxHashDepth) := by
  have hall : (World.empty.newTable.bind fun p =>
      (p.2.setAll p.1 [⟨.num 1, .number 5, .blank⟩]).map Prod.fst) = some [0] := by decide
  obtain ⟨⟨t, w₀⟩, hnew, hall⟩ := Option.bind_eq_some_iff.mp hall
  obtain ⟨⟨rs, w₁⟩, hrun, rfl⟩ := Option.map_eq_some_iff.mp hall
  obtain ⟨m, hm, hiff⟩ := enumeratesAll_iff World.empty_tidy hnew hrun (by simp)
  exact ⟨t, w₀, w₁, m, hnew, hrun, hm, hiff⟩

/-- Calls that fill the 29 buckets of a fresh table with 7 nodes each. -/
def fillCalls : List SetCall :=
  (List.range 203).map (fun i => ⟨.num (UInt64.ofNat i), .number i, .blank⟩)

/-- A fresh table with 203 keys gives the capacity 203 and 202 records. -/
theorem keys_loses_one :
    ∃ t w₀ w₁ rs cap, World.empty.newTable = some (t, w₀)
      ∧ w₀.setAll t fillCalls = some (rs, w₁) ∧ (∀ r ∈ rs, r = 0)
      ∧ (w₁.size t).map Prod.fst = some cap
      ∧ (w₁.keysInto t (List.replicate cap .blank) cap).map Prod.fst = some 202
      ∧ cap = 203 ∧ (distinctKeys fillCalls).length = 203
      ∧ ¬ w₁.EnumeratesAll t (distinctKeys fillCalls) := by
  have hall : (World.empty.newTable.bind fun p => (p.2.setAll p.1 fillCalls).bind fun q =>
      (q.2.size p.1).bind fun s => (q.2.keysInto p.1 (List.replicate s.1 .blank) s.1).map fun v =>
        (q.1.all (fun r => decide (r = 0)), s.1, v.1)) = some (true, 203, 202) := by
    decide +kernel
  have hlen : (distinctKeys fillCalls).length = 203 := by decide +kernel
  obtain ⟨⟨t, w₀⟩, hnew, hall⟩ := Option.bind_eq_some_iff.mp hall
  obtain ⟨⟨rs, w₁⟩, hrun, hall⟩ := Option.bind_eq_some_iff.mp hall
  obtain ⟨⟨cap, w₂⟩, hsize, hall⟩ := Option.bind_eq_some_iff.mp hall
  obtain ⟨⟨count, vv, w₃⟩, hkeys, hall⟩ := Option.map_eq_some_iff.mp hall
  simp only [Prod.mk.injEq] at hall
  obtain ⟨hzero, hcap, hcount⟩ := hall
  refine ⟨t, w₀, w₁, rs, cap, hnew, hrun, by simpa using hzero, by rw [hsize]; rfl,
    by rw [hkeys]; exact congrArg some hcount, hcap, hlen, ?_⟩
  rintro ⟨cap', hs, hfill⟩
  rw [hsize] at hs
  cases hs
  obtain ⟨vv', hk, -⟩ := hfill (List.replicate cap .blank) List.length_replicate
  rw [hkeys, hlen] at hk
  have h203 : count = 203 := congrArg Prod.fst (Option.some.inj hk)
  omega

end LightTable
