/-
  LightTable.Table.Overflow
  ─────────────────────────
  The bucket count over whole runs.

  `new_size = old_size * 2` is an `int`.  It is exact as long as no call
  expands a table of 29 * 2^26 buckets (`sizes_valid_iff`), and that state is
  reached with eight keys: where their hashes agree in all 32 bits, the one
  chain only changes its direction at each doubling, so setting the key at its
  end again doubles the map every time (`sizes_overflow`).
-/
import LightTable.Table.Effects

namespace LightTable

open ChainedHash

variable {w w₀ w' : World} {t : Addr} {tb : Table} {m m' : LMap} {c : SetCall}

/-! ## §1. The bucket count of a call. -/

/-- The bucket count after a call, as the code computes it. -/
def World.bucketsSet (w : World) (t : Addr) (c : SetCall) : Int :=
  match w.current t with
  | none => 0
  | some m => if m.Expands c then m.newSize else m.size

/-- The bucket count stays valid in a call: it is positive, exactly doubled by
an expansion, above every index that `hash` computes, and what the current map
has afterwards. -/
structure World.SizeStays (w : World) (t : Addr) (c : SetCall) : Prop where
  pos : 0 < w.bucketsSet t c
  doubles : ∀ m, w.current t = some m → m.Expands c → w.bucketsSet t c = m.size * 2
  index : ∀ key, (bucket (w.bucketsSet t c) key : Int) < w.bucketsSet t c
  after : ∀ r w', w.set t c = some (r, w') →
    ∃ m', w'.current t = some m' ∧ m'.size = w.bucketsSet t c

/-- The call does not expand a table of 29 * 2^26 buckets. -/
def World.HasRoom (w : World) (t : Addr) (c : SetCall) : Prop :=
  ∀ m, w.current t = some m → m.Expands c → m.size ≠ 1946157056

theorem World.Owns.bucketsSet (h : w.Owns t tb m) :
    w.bucketsSet t c = if m.Expands c then m.newSize else m.size := by
  unfold World.bucketsSet
  rw [h.current]

/-- An effect that expands gives twice the buckets, any other as many. -/
theorem LMap.Effect.size (h : m.Effect c m') (hm : m.Wf) :
    m'.size = if m.Expands c then m.size * 2 else m.size := by
  cases h with
  | same hi hm' => rw [hm', if_neg (fun hx => hi hx.1)]
  | inserted hi brk v hv hg hr =>
    have hwf := hm.inserted c.key brk hv.type_ne_nil
    rcases hg with ⟨hd, rfl⟩ | ⟨hd, b, old, b', heq⟩
    · rw [if_neg (fun hx => hd hx.2), LMap.inserted_size]
    · obtain ⟨nm, b₁, heq₁, -, -, hsize, -⟩ := hwf.doubled_spec (hr hd).room (hr hd).keys b
      rw [heq] at heq₁
      cases heq₁
      rw [if_pos ⟨hi, hd⟩, hsize, LMap.inserted_size]

theorem LMap.Wf.canGrow_of_size (hm : m.Wf) (h : m.size ≠ 1946157056) : m.CanGrow := by
  by_contra hg
  exact h (hm.size_of_not_canGrow hg)

/-- Doubling as an `int` is exact only where the map can grow. -/
theorem LMap.Sized.newSize_eq_iff (hm : m.Sized) : m.newSize = m.size * 2 ↔ m.CanGrow := by
  have hpos := hm.pos
  have hlt := hm.lt
  unfold LMap.newSize LMap.CanGrow asInt
  omega

theorem World.Sound.sizeStays_iff (h : w.Sound t tb m) : w.SizeStays t c ↔ w.HasRoom t c := by
  have hb := h.toOwns.bucketsSet (c := c)
  have hpos := h.wf.pos
  constructor
  · intro hs m₁ hm₁ hexp hmax
    rw [h.toOwns.current] at hm₁
    cases hm₁
    have hdouble := hs.doubles m h.toOwns.current hexp
    rw [hb, if_pos hexp] at hdouble
    have hg : m.size * 2 < 2147483648 := h.wf.toSized.newSize_eq_iff.mp hdouble
    omega
  · intro hroom
    -- the size that is set, as an integer
    have hset : w.bucketsSet t c = (if m.Expands c then m.size * 2 else m.size)
        ∧ w.bucketsSet t c < 2147483648 := by
      rw [hb]
      by_cases hexp : m.Expands c
      · have hg := h.wf.canGrow_of_size (hroom m h.toOwns.current hexp)
        rw [if_pos hexp, if_pos hexp, h.wf.toSized.newSize_eq_iff.mpr hg]
        exact ⟨rfl, hg⟩
      · rw [if_neg hexp, if_neg hexp]
        exact ⟨rfl, h.wf.lt⟩
    have hgt : 0 < w.bucketsSet t c := by
      rw [hset.1]
      split <;> omega
    refine ⟨hgt, ?_, ?_, ?_⟩
    · intro m₁ hm₁ hexp
      rw [h.toOwns.current] at hm₁
      cases hm₁
      rw [hset.1, if_pos hexp]
    · intro key
      have := hash_lt key hgt hset.2
      unfold bucket
      omega
    · intro r w' hx
      obtain ⟨tb', m', h', heff⟩ := h.set_effect hx
      exact ⟨m', h'.toOwns.current, by rw [hset.1, heff.size h.wf]⟩

/-- The bucket count stays valid throughout a run exactly when no call of the
run expands a table of 29 * 2^26 buckets. -/
theorem sizes_valid_iff {calls : List SetCall} (hw : w.Tidy) (hnew : w.newTable = some (t, w₀)) :
    Run.Along (fun w c => World.set w t c) (fun w c => w.SizeStays t c) w₀ calls
      ↔ Run.Along (fun w c => World.set w t c) (fun w c => w.HasRoom t c) w₀ calls := by
  obtain ⟨tb₀, h₀⟩ := World.Sound.newTable hw hnew
  refine Run.along_iff (fun w c => World.set w t c) (I := fun w => ∃ tb m, World.Sound w t tb m)
    (V := fun _ _ => True) ?_ ?_ ⟨tb₀, _, h₀⟩ (Run.along_of_forall _ (fun _ _ => trivial) _ _)
  · intro w c ⟨tb, m, h⟩ _
    exact h.sizeStays_iff
  · intro w c r w' ⟨tb, m, h⟩ _ _ hx
    exact h.set hx

/-- The theorem at a run with one doubling. -/
theorem sizes_valid_iff_stride :
    ∃ t w₀, World.empty.newTable = some (t, w₀)
      ∧ (Run.Along (fun w c => World.set w t c) (fun w c => w.SizeStays t c) w₀ (strideCalls 29 8)
        ↔ Run.Along (fun w c => World.set w t c) (fun w c => w.HasRoom t c) w₀
            (strideCalls 29 8)) := by
  have hsome : World.empty.newTable.isSome = true := by decide
  obtain ⟨⟨t, w₀⟩, hnew⟩ := Option.isSome_iff_exists.mp hsome
  exact ⟨t, w₀, hnew, sizes_valid_iff World.empty_tidy hnew⟩

/-! ## §2. Keys that share their whole hash. -/

/-- The keys have one index, whatever the bucket count. -/
def Tied (ks : List Key) : Prop := ∀ k ∈ ks, ∀ k' ∈ ks, ∀ size, bucket size k = bucket size k'

theorem tied_of_hashBits {names : List Bytes} {x : UInt32}
    (h : ∀ name ∈ names, hashBits name = x) : Tied (names.map Key.str) := by
  intro k hk k' hk' size
  obtain ⟨a, ha, rfl⟩ := List.mem_map.mp hk
  obtain ⟨b, hb, rfl⟩ := List.mem_map.mp hk'
  show (hashBits a &&& _).toNat = (hashBits b &&& _).toNat
  rw [h a ha, h b hb]

theorem Tied.perm {ks ks' : List Key} (h : Tied ks) (hp : ks'.Perm ks) : Tied ks' :=
  fun k hk k' hk' => h k (hp.mem_iff.mp hk) k' (hp.mem_iff.mp hk')

/-- The table at `t` holds the keys `ks` and no others, in this order. -/
structure World.Lists (w : World) (t : Addr) (tb : Table) (m : LMap) (ks : List Key) : Prop
    extends w.Sound t tb m where
  inv : m.Inv
  keys : m.entries.map Node.storedKey = ks.map some

/-- Tied keys stand in one chain. -/
theorem LMap.Inv.chain_tied (hm : m.Inv) {ks : List Key}
    (hk : m.entries.map Node.storedKey = ks.map some) (ht : Tied ks) {key : Key} (hkey : key ∈ ks) : m.chain key = some m.entries := by
  obtain ⟨l, hl⟩ := hm.toSized.chain key
  have hall : ∀ n ∈ m.data.flatten, ∀ k, n.storedKey = some k → bucket m.size k = bucket m.size key := by
    intro n hn k hnk
    have hmem : some k ∈ ks.map some := by
      rw [← hk, ← hnk]
      exact List.mem_map.mpr ⟨n, hn, rfl⟩
    obtain ⟨k', hk', heq⟩ := List.mem_map.mp hmem
    cases heq
    exact ht k hk' key hkey m.size
  rw [hl]
  exact congrArg some (hm.placed.flatten_eq Node.storedKey hl hall).symm

/-- The last key of a chain is found behind all others. -/
theorem LMap.Inv.depth_last (hm : m.Inv) {front : List Key} {key : Key}
    (hk : m.entries.map Node.storedKey = (front ++ [key]).map some) (ht : Tied (front ++ [key])) :
    m.depth key = front.length ∧ ∃ n, m.find key = some n := by
  have hkey : key ∈ front ++ [key] := by simp
  -- a key is stored once, so the last one is not in front of itself
  have hnodup : (front ++ [key]).Nodup := by
    have h := hm.nodup
    have heq : m.entries.filterMap Node.storedKey = front ++ [key] := by
      have hid : m.entries.filterMap Node.storedKey
          = (m.entries.map Node.storedKey).filterMap id := by
        rw [List.filterMap_map]
        rfl
      rw [hid, hk, List.filterMap_map]
      exact List.filterMap_some
    rwa [heq] at h
  have hfront : ∀ k ∈ front, k ≠ key := by
    intro k hkf heq
    have hdis := (List.nodup_append.mp hnodup).2.2
    exact hdis k hkf key (by simp) heq
  constructor
  · unfold LMap.depth
    rw [hm.chain_tied hk ht hkey, Option.getD_some]
    have hcomp : answers key = (fun k => decide (k = some key)) ∘ Node.storedKey := rfl
    rw [hcomp, ← List.findIdx_map, hk, List.map_append, List.findIdx_append]
    -- the search passes the whole front
    have hnone : (front.map some).findIdx (fun k => decide (k = some key)) = front.length := by
      rw [← List.length_map (f := (some : Key → Option Key)), List.findIdx_eq_length]
      intro k hkm
      obtain ⟨k', hk', rfl⟩ := List.mem_map.mp hkm
      exact decide_eq_false (fun heq => hfront k' hk' (Option.some.inj heq))
    rw [hnone, List.length_map, if_neg (Nat.lt_irrefl _)]
    simp [List.findIdx_cons]
  · have hmem : some key ∈ m.entries.map Node.storedKey := by
      rw [hk]
      exact List.mem_map.mpr ⟨key, hkey, rfl⟩
    obtain ⟨n, hn, hnk⟩ := List.mem_map.mp hmem
    exact ⟨n, hm.find_eq_some.mpr ⟨hn, hnk⟩⟩

/-- Doubling turns the chain of tied keys around. -/
theorem LMap.Inv.doubled_tied (hm : m.Inv) (hg : m.CanGrow) {ks : List Key}
    (hk : m.entries.map Node.storedKey = ks.map some) (ht : Tied ks) (hne : ks ≠ [])
    {nm old : LMap} {b b' : Addr} (heq : m.doubled b = some (nm, old, b')) :
    nm.entries.map Node.storedKey = ks.reverse.map some := by
  obtain ⟨key, hkey⟩ := List.exists_mem_of_ne_nil ks hne
  have hready : m.Ready := ⟨hg, hm.storedKey_ne_none⟩
  obtain ⟨nm', b₁, heq₁, -, hinv, hsize, -, hview, -⟩ := hm.doubled_spec hg b
  rw [heq] at heq₁
  cases heq₁
  -- every node of the old map lands in one chain of the new one
  have hall : m.entries.filter (Node.lands (m.size * 2) (bucket (m.size * 2) key)) = m.entries := by
    rw [List.filter_eq_self]
    intro n hn
    have hmem : n.storedKey ∈ ks.map some := by
      rw [← hk]
      exact List.mem_map.mpr ⟨n, hn, rfl⟩
    obtain ⟨k, hks, hnk⟩ := List.mem_map.mp hmem
    unfold Node.lands
    rw [← hnk]
    exact decide_eq_true (congrArg some (ht k hks key hkey _))
  have hchain := hm.toWf.doubled_chains hready heq (bucket (m.size * 2) key)
  rw [hall] at hchain
  have hkeys : (nm.chainAt (bucket (m.size * 2) key)).map Node.storedKey = ks.reverse.map some := by
    have h := congrArg (List.map Prod.fst) hchain
    rw [List.map_map, List.map_reverse, List.map_map] at h
    have hfst : Prod.fst ∘ Node.content = Node.storedKey := rfl
    rw [hfst, hk] at h
    rw [h, List.map_reverse]
  -- and that chain is all there is
  obtain ⟨l, hl⟩ := hinv.toSized.chain key
  have hland : nm.chainAt (bucket (m.size * 2) key) = l := by
    unfold LMap.chainAt
    unfold LMap.chain at hl
    rw [← hsize, hl]
    rfl
  have hflat : nm.entries = l := by
    refine hinv.placed.flatten_eq Node.storedKey hl ?_
    intro n hn k hnk
    have hfind : nm.find k = some n := hinv.find_eq_some.mpr ⟨hn, hnk⟩
    have hold : m.view k ≠ none := by
      rw [← hview]
      unfold LMap.view
      rw [hfind]
      exact Option.some_ne_none _
    obtain ⟨n', hn'⟩ : ∃ n', m.find k = some n' := by
      cases hf : m.find k with
      | none =>
        unfold LMap.view at hold
        rw [hf] at hold
        exact absurd rfl hold
      | some n' => exact ⟨n', rfl⟩
    have hmem : some k ∈ ks.map some := by
      obtain ⟨hn', hnk'⟩ := LMap.find_mem hn'
      rw [← hk, ← hnk']
      exact List.mem_map.mpr ⟨n', hn', rfl⟩
    obtain ⟨k', hk', hkk⟩ := List.mem_map.mp hmem
    cases hkk
    exact ht k hk' key hkey nm.size
  rw [hflat, ← hland]
  exact hkeys

/-! ## §3. Setting the last key of the chain again and again. -/

theorem World.Lists.expands {front : List Key} {key : Key} (h : w.Lists t tb m (front ++ [key]))
    (ht : Tied (front ++ [key])) (hd : maxHashDepth ≤ front.length) :
    m.Expands ⟨key, .number 0, .blank⟩ := by
  refine ⟨fun hs => absurd hs (show LType.number ≠ .string by decide), ?_⟩
  rw [(h.inv.depth_last h.keys ht).1]
  exact hd

/-- One call on the last of at least eight keys: twice the buckets, and the
keys in reverse. -/
theorem World.Lists.set_last {front : List Key} {key : Key} (h : w.Lists t tb m (front ++ [key]))
    (ht : Tied (front ++ [key])) (hd : maxHashDepth ≤ front.length) (hg : m.CanGrow) :
    ∃ r w' tb' m', w.set t ⟨key, .number 0, .blank⟩ = some (r, w')
      ∧ w'.Lists t tb' m' (key :: front.reverse) ∧ m'.size = m.size * 2 := by
  obtain ⟨hdepth, n, hn⟩ := h.inv.depth_last h.keys ht
  set v : Value := ⟨0, .number, 0⟩ with hv
  have hvt : v.type ≠ .nil := by decide
  have hdeep : maxHashDepth ≤ m.depth key := by rw [hdepth]; exact hd
  have hins : ∀ brk, m.inserted brk key v = m.overwrite key 0 := fun brk => LMap.inserted_found hn _ _
  have hinv := h.inv.overwrite key 0
  -- the value is overwritten in place, and the map is doubled all the same
  have hkeys : (m.overwrite key 0).entries.map Node.storedKey = (front ++ [key]).map some := by
    rw [h.wf.toSized.map_overwrite key 0 (fun _ => rfl)]
    exact h.keys
  obtain ⟨w', tb', m', heq, howns, hgrown, hsize, hframe, -⟩ :=
    h.toOwns.insertTable h.wf key hvt (fun _ => by
      rw [hins]
      exact ⟨hg, hinv.storedKey_ne_none⟩)
  rw [hins] at hgrown
  obtain ⟨hinv', -⟩ := hinv.grown hgrown (fun _ => hg)
  have hset : w.set t ⟨key, .number 0, .blank⟩
      = some (if m.typeAt key ≠ .number ∧ m.typeAt key ≠ .nil then 1 else 0, w') := by
    show w.setPlain t key .blank .number 0 = _
    unfold World.setPlain
    show (w.insertTable t key v).bind _ = _
    rw [heq]
    rfl
  refine ⟨_, w', tb', m', hset, ⟨⟨howns, hinv'.toWf, h.tidy.frame hframe⟩, hinv', ?_⟩, ?_⟩
  · rcases hgrown with ⟨hnd, -⟩ | ⟨-, b, old, b', hdouble⟩
    · exact absurd hdeep hnd
    · -- the copy links the keys in reverse
      rw [hinv.doubled_tied hg hkeys ht (by simp) hdouble, List.reverse_append]
      rfl
  · unfold grownSize at hsize
    rw [if_pos hdeep] at hsize
    exact hsize

/-- `n` calls on the two ends of a chain in turn, on `b` first. -/
def endCalls : Nat → Key → Key → List SetCall
  | 0, _, _ => []
  | n + 1, a, b => ⟨b, .number 0, .blank⟩ :: endCalls n b a

/-- Each of `n` such calls doubles the bucket count, and the next one would
again. -/
theorem World.Lists.run_ends :
    ∀ (n : Nat) {w : World} {tb : Table} {m : LMap} {a b : Key} {mid : List Key},
      w.Lists t tb m (a :: mid ++ [b]) → Tied (a :: mid ++ [b]) → maxHashDepth ≤ mid.length + 1 →
      m.size * 2 ^ n < 2147483648 →
      ∃ rs w' tb' m' c, w.setAll t (endCalls n a b) = some (rs, w') ∧ w'.Sound t tb' m'
        ∧ m'.size = m.size * 2 ^ n ∧ m'.Expands c ∧ endCalls (n + 1) a b = endCalls n a b ++ [c]
  | 0, w, tb, m, a, b, mid, h, ht, hd, _ =>
      ⟨[], w, tb, m, ⟨b, .number 0, .blank⟩, rfl, h.toSound, by simp, h.expands ht hd, rfl⟩
  | n + 1, w, tb, m, a, b, mid, h, ht, hd, hsmall => by
      have hpow : m.size * 2 ^ (n + 1) = m.size * 2 * 2 ^ n := by
        rw [Int.pow_succ, Int.mul_comm (2 ^ n), Int.mul_assoc]
      rw [hpow] at hsmall ⊢
      have hpos := h.wf.pos
      -- one doubling fits when all that are left do
      have hg : m.CanGrow := by
        have hone : (1 : Int) ≤ 2 ^ n := Int.pow_pos (by decide)
        have hle := Int.mul_le_mul_of_nonneg_left hone (show 0 ≤ m.size * 2 by omega)
        show m.size * 2 < 2147483648
        omega
      obtain ⟨r, w₁, tb₁, m₁, hset, h₁, hsize⟩ := h.set_last ht hd hg
      -- the two ends have changed places
      have hlist : b :: (a :: mid).reverse = b :: mid.reverse ++ [a] := by simp
      rw [hlist] at h₁
      have hperm : (b :: mid.reverse ++ [a]).Perm (a :: mid ++ [b]) := by
        rw [← hlist]
        exact ((List.reverse_perm _).cons b).trans (List.perm_append_singleton b _).symm
      obtain ⟨rs, w', tb', m', c, hrun, h', hsize', hexp, hlast⟩ :=
        World.Lists.run_ends n h₁ (ht.perm hperm) (by rw [List.length_reverse]; exact hd)
          (by rw [hsize]; exact hsmall)
      refine ⟨r :: rs, w', tb', m', c, (Run.run_cons_some _).mpr ⟨r, w₁, rs, hset, hrun, rfl⟩, h',
        by rw [hsize', hsize], hexp, ?_⟩
      show _ :: endCalls (n + 1) b a = _ :: endCalls n b a ++ [c]
      rw [hlast]
      rfl

/-- Eight strings with one hash: in each of three places either of two pieces
leads to the same bits. -/
def tiedNames : List Bytes :=
  [[97, 98, 98], [97, 99, 65]].flatMap fun x => [[97, 97, 107], [97, 98, 67]].flatMap fun y =>
    [[97, 97, 99], [97, 98, 66]].map fun z => x ++ y ++ z

/-- The eight keys are set once, then the two ends of their chain `n` times. -/
def tiedCalls (n : Nat) : List SetCall :=
  tiedNames.map (fun name => ⟨.str name, .number 0, .blank⟩)
    ++ endCalls n (.str [97, 99, 65, 97, 98, 67, 97, 98, 66])
      (.str [97, 98, 98, 97, 97, 107, 97, 97, 99])

/-- After 33 calls on eight keys there are 29 * 2^26 buckets, and the next call
computes a negative size. -/
theorem sizes_overflow :
    ∃ t w₀ w₁ rs m c, World.empty.newTable = some (t, w₀)
      ∧ w₀.setAll t (tiedCalls 25) = some (rs, w₁) ∧ w₁.current t = some m
      ∧ m.size = 1946157056 ∧ m.Expands c ∧ m.newSize = -402653184
      ∧ tiedCalls 26 = tiedCalls 25 ++ [c]
      ∧ ¬ Run.Along (fun w c => World.set w t c) (fun w c => w.SizeStays t c) w₀
          (tiedCalls 26) := by
  -- the eight inserts: one chain, turned around by the first doubling
  have hall : (World.empty.newTable.bind fun p =>
      (p.2.setAll p.1 (tiedCalls 0)).bind fun q =>
        (q.2.current p.1).map fun m => (m.size, m.entries.map Node.storedKey))
      = some (58, tiedNames.reverse.map fun name => some (.str name)) := by decide +kernel
  obtain ⟨⟨t, w₀⟩, hnew, hall⟩ := Option.bind_eq_some_iff.mp hall
  obtain ⟨⟨rs₀, w₁⟩, hrun₀, hall⟩ := Option.bind_eq_some_iff.mp hall
  obtain ⟨m₁, hm₁, hall⟩ := Option.map_eq_some_iff.mp hall
  simp only [Prod.mk.injEq] at hall
  obtain ⟨hsize, hkeys⟩ := hall
  obtain ⟨tb₀, h₀⟩ := World.Sound.newTable World.empty_tidy hnew
  obtain ⟨tb₁, m, h₁, hinv, -⟩ := h₀.setAll_inv LMap.new_inv
    (show ∀ c ∈ tiedCalls 0, c.key.Fits by decide) hrun₀
  rw [h₁.toOwns.current] at hm₁
  cases hm₁
  have htied : Tied (tiedNames.reverse.map Key.str) :=
    tied_of_hashBits (x := 3238879585) (by decide)
  set mid : List Key := (tiedNames.reverse.map Key.str).tail.dropLast with hmid
  have hlists : w₁.Lists t tb₁ m₁ (.str [97, 99, 65, 97, 98, 67, 97, 98, 66] :: mid
      ++ [.str [97, 98, 98, 97, 97, 107, 97, 97, 99]]) :=
    ⟨h₁, hinv, by rw [hkeys]; rfl⟩
  -- 25 doublings, and the call after them
  obtain ⟨rs, w₂, tb₂, m₂, c, hrun, h₂, hsize₂, hexp, hlast⟩ :=
    World.Lists.run_ends 25 hlists htied
      (by decide) (by rw [hsize]; decide)
  rw [hsize] at hsize₂
  have hmax : m₂.size = 1946157056 := hsize₂
  have happ : ∀ n, tiedCalls n = tiedCalls 0 ++ endCalls n
      (.str [97, 99, 65, 97, 98, 67, 97, 98, 66]) (.str [97, 98, 98, 97, 97, 107, 97, 97, 99]) :=
    fun n => rfl
  have hfull : w₀.setAll t (tiedCalls 25) = some (rs₀ ++ rs, w₂) := by
    rw [happ]
    exact (Run.run_append_some _).mpr ⟨rs₀, w₁, rs, hrun₀, hrun, rfl⟩
  have h26 : tiedCalls 26 = tiedCalls 25 ++ [c] := by
    rw [happ 26, happ 25, List.append_assoc]
    exact congrArg _ hlast
  refine ⟨t, w₀, w₂, _, m₂, c, hnew, hfull, h₂.toOwns.current, hmax, hexp, ?_, h26, ?_⟩
  · unfold LMap.newSize
    rw [hmax]
    decide
  · intro halong
    rw [h26] at halong
    have hstays := (Run.along_drop _ halong hfull).1
    exact h₂.sizeStays_iff.mp hstays m₂ h₂.toOwns.current hexp hmax

end LightTable
