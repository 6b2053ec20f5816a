/-
  LightTable.Table.Growth
  ───────────────────────
  How the bucket count and the chains grow over whole runs.

  An insert that walks `MAX_HASH_DEPTH` nodes doubles the map once, whatever
  the number of entries and whether or not the chain gets shorter.  So

    • a chain that stays long is not counted in `size()` (`entries_le_capacity`);
    • a string key is masked with `size - 1`, and 29 * 2^k - 1 is no run of
      ones, so two chains can be merged by a doubling (`doubling_noWorse_iff`).
-/
import LightTable.Map.Answer
import LightTable.Table.Effects
import LightTable.Table.Enumerate

namespace LightTable

open ChainedHash

variable {w w₀ w' : World} {t : Addr} {tb : Table} {m m' : LMap} {c : SetCall}

/-! ## §1. Chain lengths. -/

/-- The length of the longest chain. -/
def LMap.longest (m : LMap) : Nat := (m.data.map List.length).foldr max 0

theorem foldr_max_le {l : List Nat} {x : Nat} : l.foldr max 0 ≤ x ↔ ∀ y ∈ l, y ≤ x := by
  induction l with
  | nil => simp
  | cons y l ih =>
    simp only [List.foldr_cons, List.mem_cons, forall_eq_or_imp, Nat.max_le, ih]

theorem LMap.longest_le {x : Nat} : m.longest ≤ x ↔ ∀ l ∈ m.data, l.length ≤ x := by
  unfold LMap.longest
  rw [foldr_max_le]
  simp

theorem LMap.longest_le_iff {x : Nat} : m.longest ≤ x ↔ ∀ i, (m.chainAt i).length ≤ x := by
  rw [LMap.longest_le]
  unfold LMap.chainAt
  constructor
  · intro h i
    cases hi : m.data[i]? with
    | none => exact Nat.zero_le x
    | some l => exact h l (List.mem_of_getElem? hi)
  · intro h l hl
    obtain ⟨i, hi⟩ := List.mem_iff_getElem?.mp hl
    have := h i
    rwa [hi] at this

/-- A map has at most its longest chain for every bucket. -/
theorem LMap.Sized.entries_le (hm : m.Sized) {x : Nat} (h : m.longest ≤ x) :
    m.entries.length ≤ x * m.size.toNat := by
  rw [LMap.longest_le] at h
  rw [← hm.length]
  unfold LMap.entries
  generalize m.data = d at h
  induction d with
  | nil => exact Nat.zero_le _
  | cons l d ih =>
    have hl := h l (by simp)
    have hd := ih (fun l' hl' => h l' (by simp [hl']))
    rw [List.flatten_cons, List.length_append, List.length_cons, Nat.mul_succ]
    omega

/-! ## §2. The keys an expansion finds. -/

/-- The keys stored after an insert of `key`. -/
def LMap.keysWith (m : LMap) (key : Key) : List (Option Key) :=
  (if m.find key = none then [key.stored] else []) ++ m.entries.map Node.storedKey

/-- How many of them hash to the index `i` under twice the bucket count. -/
def LMap.landing (m : LMap) (key : Key) (i : Nat) : Nat :=
  (m.keysWith key).countP (fun k => decide (k.map (bucket (m.size * 2)) = some i))

theorem LMap.keysWith_perm (hm : m.Sized) (brk : Addr) (key : Key) (v : Value) :
    ((m.inserted brk key v).entries.map Node.storedKey).Perm (m.keysWith key) := by
  unfold LMap.keysWith
  cases h : m.find key with
  | some n =>
    rw [LMap.inserted_found h, hm.map_overwrite key v.v (fun _ => rfl), if_neg (by simp)]
    exact List.Perm.refl _
  | none =>
    rw [LMap.inserted_absent h, if_pos rfl, ← freshNode_stored brk key v]
    exact (hm.entries_link key _).map Node.storedKey

/-- The chain lengths of the doubled map, from the keys alone. -/
theorem LMap.Wf.length_landing (hm : m.Wf) {key : Key} {brk : Addr} {v : Value}
    (hv : v.type ≠ .nil) (hr : (m.inserted brk key v).Ready) {nm old : LMap} {b b' : Addr}
    (h : (m.inserted brk key v).doubled b = some (nm, old, b')) (i : Nat) :
    (nm.chainAt i).length = m.landing key i := by
  rw [(hm.inserted key brk hv).doubled_length hr h i, LMap.inserted_size]
  unfold LMap.landing
  rw [← (LMap.keysWith_perm hm.toSized brk key v).countP_eq, List.countP_map]
  rfl

/-! ## §3. The chains after an insert. -/

theorem LMap.chainAt_eq {key : Key} {l : List Node}
    (hl : m.chain key = some l) : m.chainAt (bucket m.size key) = l := by
  unfold LMap.chainAt
  unfold LMap.chain at hl
  rw [hl]
  rfl

theorem LMap.Sized.chainAt_setChain (hm : m.Sized) (key : Key) (l : List Node) (i : Nat) :
    (m.setChain key l).chainAt i = if bucket m.size key = i then l else m.chainAt i := by
  have hlt := hm.bucket_lt key
  unfold LMap.chainAt LMap.setChain
  rw [List.getElem?_set]
  by_cases h : bucket m.size key = i
  · subst h
    simp [hlt]
  · rw [if_neg h, if_neg h]

/-- The keys in one chain after an insert of `key`, before any expansion. -/
def LMap.keysIn (m : LMap) (key : Key) (i : Nat) : List (Option Key) :=
  (m.chainAt i).map Node.storedKey
    ++ if m.find key = none ∧ bucket m.size key = i then [key.stored] else []

theorem LMap.mem_chainAt {i : Nat} {n : Node} (h : n ∈ m.chainAt i) :
    ∃ l, m.data[i]? = some l ∧ n ∈ l := by
  unfold LMap.chainAt at h
  cases hl : m.data[i]? with
  | none =>
    rw [hl] at h
    exact absurd h (by simp)
  | some l =>
    rw [hl] at h
    exact ⟨l, rfl, h⟩

theorem LMap.keysIn_subset {key : Key} {i : Nat} {k : Option Key} (h : k ∈ m.keysIn key i) :
    k ∈ m.keysWith key := by
  unfold LMap.keysWith
  rcases List.mem_append.mp h with h | h
  · obtain ⟨n, hn, rfl⟩ := List.mem_map.mp h
    obtain ⟨l, hl, hnl⟩ := LMap.mem_chainAt hn
    have hmem : n ∈ m.entries := List.mem_flatten.mpr ⟨l, List.mem_of_getElem? hl, hnl⟩
    exact List.mem_append.mpr (Or.inr (List.mem_map.mpr ⟨n, hmem, rfl⟩))
  · split at h
    next habs =>
      rw [if_pos habs.1]
      exact List.mem_append.mpr (Or.inl h)
    next => exact absurd h (by simp)

theorem LMap.Sized.keysIn_inserted (hm : m.Sized) (brk : Addr) (key : Key) (v : Value) (i : Nat) :
    ((m.inserted brk key v).chainAt i).map Node.storedKey = m.keysIn key i := by
  obtain ⟨l, hl⟩ := hm.chain key
  have hchain := LMap.chainAt_eq hl
  unfold LMap.keysIn
  cases h : m.find key with
  | some n =>
    have hnone : ¬ (some n = none ∧ bucket m.size key = i) := by simp
    rw [LMap.inserted_found h, LMap.overwrite_eq hl, hm.chainAt_setChain, if_neg hnone,
      List.append_nil]
    by_cases hi : bucket m.size key = i
    · rw [if_pos hi, map_modifyFirst (f := Node.setWord v.v) (fun _ => rfl), ← hi, hchain]
    · rw [if_neg hi]
  | none =>
    rw [LMap.inserted_absent h, LMap.link_eq hl]
    show ((m.setChain key (l ++ [freshNode brk key v])).chainAt i).map Node.storedKey = _
    rw [hm.chainAt_setChain]
    by_cases hi : bucket m.size key = i
    · rw [if_pos hi, if_pos ⟨rfl, hi⟩, ← hi, hchain, List.map_append, ← freshNode_stored brk key v]
      rfl
    · rw [if_neg hi, if_neg (fun hx => hi hx.2), List.append_nil]

/-- An insert makes one chain longer by one, and only for an absent key. -/
theorem LMap.Sized.length_inserted (hm : m.Sized) (brk : Addr) (key : Key) (v : Value) (i : Nat) :
    ((m.inserted brk key v).chainAt i).length
      = (m.chainAt i).length + if m.find key = none ∧ bucket m.size key = i then 1 else 0 := by
  have h := congrArg List.length (hm.keysIn_inserted brk key v i)
  unfold LMap.keysIn at h
  rw [List.length_map, List.length_append, List.length_map] at h
  rw [h]
  split <;> rfl

/-- An absent key is looked for in the whole chain. -/
theorem LMap.Sized.depth_absent (hm : m.Sized) {key : Key} (h : m.find key = none) :
    m.depth key = (m.chainAt (bucket m.size key)).length := by
  obtain ⟨l, hl⟩ := hm.chain key
  rw [LMap.chainAt_eq hl]
  rw [LMap.find_eq hl, lookup_eq_none] at h
  unfold LMap.depth
  rw [hl, Option.getD_some]
  refine List.findIdx_eq_length.mpr ?_
  intro n hn
  exact decide_eq_false (h n hn)

/-- The longest chain after an insert of `key`, before any expansion. -/
def LMap.longestWith (m : LMap) (key : Key) : Nat :=
  if m.find key = none then max m.longest ((m.chainAt (bucket m.size key)).length + 1)
  else m.longest

theorem LMap.Sized.longest_inserted (hm : m.Sized) (brk : Addr) (key : Key) (v : Value) :
    (m.inserted brk key v).longest = m.longestWith key := by
  -- the two maxima have the same bounds
  have hiff : ∀ x, (m.inserted brk key v).longest ≤ x ↔ m.longestWith key ≤ x := by
    intro x
    rw [LMap.longest_le_iff]
    unfold LMap.longestWith
    by_cases hf : m.find key = none
    · -- one node more, in the bucket of the key
      rw [if_pos hf, Nat.max_le, LMap.longest_le_iff]
      constructor
      · intro h
        refine ⟨fun i => ?_, ?_⟩
        · have := h i
          rw [hm.length_inserted] at this
          omega
        · have := h (bucket m.size key)
          rwa [hm.length_inserted, if_pos ⟨hf, rfl⟩] at this
      · rintro ⟨h, hkey⟩ i
        rw [hm.length_inserted]
        by_cases hi : bucket m.size key = i
        · rw [if_pos ⟨hf, hi⟩, ← hi]
          exact hkey
        · rw [if_neg (fun hx => hi hx.2)]
          exact h i
    · -- no node more
      rw [if_neg hf, LMap.longest_le_iff]
      constructor <;> intro h i
      · have := h i
        rwa [hm.length_inserted, if_neg (fun hx => hf hx.1)] at this
      · rw [hm.length_inserted, if_neg (fun hx => hf hx.1)]
        exact h i
  exact Nat.le_antisymm ((hiff _).mpr (Nat.le_refl _)) ((hiff _).mp (Nat.le_refl _))

/-! ## §4. The capacity. -/

/-- A call that makes the map grow leaves at most `MAX_HASH_DEPTH` keys on one
index of the doubled size. -/
def World.Spreads (w : World) (t : Addr) (c : SetCall) : Prop :=
  ∀ m, w.current t = some m → m.Expands c → ∀ i, m.landing c.key i ≤ maxHashDepth

/-- Chains stay within `MAX_HASH_DEPTH` when a growth spreads the keys. -/
theorem LMap.Effect.longest (h : m.Effect c m') (hm : m.Wf) (hle : m.longest ≤ maxHashDepth)
    (hs : m.Expands c → ∀ i, m.landing c.key i ≤ maxHashDepth) : m'.longest ≤ maxHashDepth := by
  cases h with
  | same hi hm' =>
    rw [hm']
    exact hle
  | inserted hi brk v hv hg hr =>
    rcases hg with ⟨hd, rfl⟩ | ⟨hd, b, old, b', heq⟩
    · rw [hm.toSized.longest_inserted]
      unfold LMap.longestWith
      split
      next hf =>
        -- the key was looked for in its whole chain
        rw [hm.toSized.depth_absent hf] at hd
        omega
      next => exact hle
    · rw [LMap.longest_le_iff]
      intro i
      rw [hm.length_landing hv.type_ne_nil (hr hd) heq i]
      exact hs ⟨hi, hd⟩ i

theorem LMap.new_longest : (LMap.new 29).longest ≤ maxHashDepth := by decide

/-- Runs whose growths spread the keys keep every chain short. -/
theorem World.Sound.longest_setAll (h : w.Sound t tb m) (hle : m.longest ≤ maxHashDepth)
    {calls : List SetCall} {rs : List Int}
    (hs : Run.Along (fun w c => World.set w t c) (fun w c => w.Spreads t c) w calls)
    (hx : w.setAll t calls = some (rs, w')) :
    ∃ tb' m', w'.Sound t tb' m' ∧ m'.longest ≤ maxHashDepth := by
  refine Run.run_inv_along (fun w c => World.set w t c)
    (I := fun w => ∃ tb m, World.Sound w t tb m ∧ m.longest ≤ maxHashDepth) ?_
    ⟨tb, m, h, hle⟩ hs hx
  intro w c r w' ⟨tb, m, hsound, hle⟩ hspread hset
  obtain ⟨tb', m', hsound', heff⟩ := hsound.set_effect hset
  exact ⟨tb', m', hsound', heff.longest hsound.wf hle (hspread m hsound.toOwns.current)⟩

/-- While every growth spreads the keys a table has at most `MAX_HASH_DEPTH`
entries for every bucket, and `size()` is enough for them as long as its
product fits an `int`. -/
theorem entries_le_capacity {calls : List SetCall} {rs : List Int} {w₁ : World} (hw : w.Tidy)
    (hnew : w.newTable = some (t, w₀)) (hx : w₀.setAll t calls = some (rs, w₁))
    (hs : Run.Along (fun w c => World.set w t c) (fun w c => w.Spreads t c) w₀ calls) :
    ∃ m, w₁.current t = some m ∧ (m.entries.length : Int) ≤ m.size * maxHashDepth
      ∧ (m.size * maxHashDepth < 2147483648 →
          ∃ cap, w₁.size t = some (cap, w₁) ∧ m.entries.length ≤ cap) := by
  obtain ⟨tb₀, h₀⟩ := World.Sound.newTable hw hnew
  obtain ⟨tb, m, h, hle⟩ := h₀.longest_setAll LMap.new_longest hs hx
  have hlen := h.wf.toSized.entries_le hle
  have hpos := h.wf.pos
  unfold maxHashDepth at hlen ⊢
  refine ⟨m, h.toOwns.current, by omega, ?_⟩
  intro hfit
  have hcap := h.wf.capacity_eq
  unfold maxHashDepth at hcap
  exact ⟨capacity m.size, h.toOwns.size h.wf hfit, by omega⟩

/-- The indices that the keys hash to under twice the bucket count. -/
def LMap.landings (m : LMap) (key : Key) : List Nat :=
  (m.keysWith key).filterMap (fun k => k.map (bucket (m.size * 2)))

theorem LMap.landing_le_iff {x : Nat} {key : Key} :
    (∀ i ∈ m.landings key, m.landing key i ≤ x) ↔ ∀ i, m.landing key i ≤ x := by
  constructor
  · intro h i
    by_cases hi : i ∈ m.landings key
    · exact h i hi
    · -- no key hashes there
      have hzero : m.landing key i = 0 := by
        unfold LMap.landing
        rw [List.countP_eq_zero]
        intro k hk hki
        exact hi (List.mem_filterMap.mpr ⟨k, hk, of_decide_eq_true hki⟩)
      rw [hzero]
      exact Nat.zero_le x
  · intro h i _
    exact h i

instance World.decidableSpreads (w : World) (t : Addr) (c : SetCall) : Decidable (w.Spreads t c) :=
  match h : w.current t with
  | none => isTrue (fun _ hm => absurd (h.symm.trans hm) (by simp))
  | some m =>
      decidable_of_iff (m.Expands c → ∀ i ∈ m.landings c.key, m.landing c.key i ≤ maxHashDepth) (by
        rw [LMap.landing_le_iff]
        constructor
        · intro hs m' hm'
          rw [h] at hm'
          cases hm'
          exact hs
        · intro hs
          exact hs m h)

/-- Eight keys of one chain, which the doubled map keeps in two. -/
theorem entries_le_capacity_two :
    ∃ t w₀ w₁ rs m, World.empty.newTable = some (t, w₀)
      ∧ w₀.setAll t (strideCalls 29 8) = some (rs, w₁) ∧ w₁.current t = some m
      ∧ (m.entries.length : Int) ≤ m.size * maxHashDepth := by
  have hall : (World.empty.newTable.bind fun p =>
      (p.2.setAll p.1 (strideCalls 29 8)).map fun _ =>
        decide (Run.Along (fun w c => World.set w p.1 c) (fun w c => w.Spreads p.1 c) p.2
          (strideCalls 29 8))) = some true := by decide +kernel
  obtain ⟨⟨t, w₀⟩, hnew, hall⟩ := Option.bind_eq_some_iff.mp hall
  obtain ⟨⟨rs, w₁⟩, hrun, hs⟩ := Option.map_eq_some_iff.mp hall
  obtain ⟨m, hm, hle, -⟩ :=
    entries_le_capacity World.empty_tidy hnew hrun (of_decide_eq_true hs)
  exact ⟨t, w₀, w₁, rs, m, hnew, hrun, hm, hle⟩

/-- Calls that leave eight keys in one chain of 58 buckets and then put seven
keys into every other bucket. -/
def crowdCalls : List SetCall :=
  strideCalls 58 8 ++ (List.range 399).map (fun j =>
    ⟨.num (UInt64.ofNat (1 + j % 57 + 58 * (j / 57))), .number j, .blank⟩)

/-- All 407 calls return 0, and `size()` says that 406 records are enough. -/
theorem capacity_exceeded :
    ∃ t w₀ w₁ w₂ rs m, World.empty.newTable = some (t, w₀)
      ∧ w₀.setAll t crowdCalls = some (rs, w₁) ∧ (∀ r ∈ rs, r = 0)
      ∧ w₁.current t = some m ∧ m.size = 58 ∧ m.entries.length = 407
      ∧ w₁.size t = some (406, w₂)
      ∧ ¬ (m.entries.length : Int) ≤ m.size * maxHashDepth := by
  have hall : (World.empty.newTable.bind fun p =>
      (p.2.setAll p.1 crowdCalls).bind fun q =>
        (q.2.current p.1).bind fun m => (q.2.size p.1).map fun x =>
          ((q.1.all fun r => r == 0), m.size, m.entries.length, x.1))
      = some (true, 58, 407, 406) := by decide +kernel
  obtain ⟨⟨t, w₀⟩, hnew, hall⟩ := Option.bind_eq_some_iff.mp hall
  obtain ⟨⟨rs, w₁⟩, hrun, hall⟩ := Option.bind_eq_some_iff.mp hall
  obtain ⟨m, hm, hall⟩ := Option.bind_eq_some_iff.mp hall
  obtain ⟨⟨cap, w₂⟩, hcap, hall⟩ := Option.map_eq_some_iff.mp hall
  simp only [Prod.mk.injEq] at hall
  obtain ⟨hrs, hsize, hlen, rfl⟩ := hall
  refine ⟨t, w₀, w₁, w₂, rs, m, hnew, hrun, ?_, hm, hsize, hlen, hcap, ?_⟩
  · intro r hr
    exact eq_of_beq (List.all_eq_true.mp hrs r hr)
  · rw [hsize, hlen]
    decide

/-! ## §5. Chains that are merged. -/

/-- Keys of two different chains hash to the index `i` under twice the bucket
count. -/
def LMap.Merges (m : LMap) (key : Key) (i : Nat) : Prop :=
  ∃ j₁ j₂ k₁ k₂, j₁ ≠ j₂ ∧ k₁ ∈ m.keysIn key j₁ ∧ k₂ ∈ m.keysIn key j₂
    ∧ k₁.map (bucket (m.size * 2)) = some i ∧ k₂.map (bucket (m.size * 2)) = some i

/-- What stands in one list of a family is no more than the longest of them. -/
theorem countP_flatten_le {α : Type} {p : α → Bool} :
    ∀ {b : List (List α)},
      (∀ (i j : Nat) (l l' : List α), b[i]? = some l → b[j]? = some l' → (∃ e ∈ l, p e) →
        (∃ e ∈ l', p e) → i = j) →
      b.flatten.countP p ≤ (b.map List.length).foldr max 0
  | [], _ => Nat.zero_le _
  | l :: b, h => by
      rw [List.flatten_cons, List.countP_append, List.map_cons, List.foldr_cons]
      by_cases hl : ∃ e ∈ l, p e
      · -- nothing is left for the other lists
        have hrest : b.flatten.countP p = 0 := by
          rw [List.countP_eq_zero]
          intro e he hpe
          obtain ⟨l', hl', he'⟩ := List.mem_flatten.mp he
          obtain ⟨j, hj⟩ := List.mem_iff_getElem?.mp hl'
          have := h 0 (j + 1) l l' rfl hj hl ⟨e, he', hpe⟩
          omega
        rw [hrest, Nat.add_zero]
        exact Nat.le_trans List.countP_le_length (Nat.le_max_left _ _)
      · have hzero : l.countP p = 0 := by
          rw [List.countP_eq_zero]
          intro e he hpe
          exact hl ⟨e, he, hpe⟩
        have ih : b.flatten.countP p ≤ (b.map List.length).foldr max 0 := by
          refine countP_flatten_le ?_
          intro i j l₁ l₂ hi hj h₁ h₂
          have := h (i + 1) (j + 1) l₁ l₂ hi hj h₁ h₂
          omega
        rw [hzero, Nat.zero_add]
        exact Nat.le_trans ih (Nat.le_max_right _ _)

/-- Keys that come from one chain are no more than that chain has. -/
theorem LMap.Sized.landing_le (hm : m.Sized) {key : Key} {i : Nat} (h : ¬ m.Merges key i) :
    m.landing key i ≤ m.longestWith key := by
  set v : Value := .blank
  have hcount : m.landing key i = (m.inserted 0 key v).entries.countP (Node.lands (m.size * 2) i) := by
    unfold LMap.landing
    rw [← (LMap.keysWith_perm hm 0 key v).countP_eq, List.countP_map]
    rfl
  rw [hcount, ← hm.longest_inserted 0 key v]
  refine countP_flatten_le ?_
  intro j₁ j₂ l₁ l₂ h₁ h₂ hland₁ hland₂
  by_contra hne
  -- two nodes of different chains would land on `i`
  have hkey : ∀ j l, (m.inserted 0 key v).data[j]? = some l →
      (∃ n ∈ l, Node.lands (m.size * 2) i n) →
      ∃ k ∈ m.keysIn key j, k.map (bucket (m.size * 2)) = some i := by
    intro j l hl ⟨n, hn, hland⟩
    have hchain : (m.inserted 0 key v).chainAt j = l := by
      unfold LMap.chainAt
      rw [hl]
      rfl
    refine ⟨n.storedKey, ?_, of_decide_eq_true hland⟩
    rw [← hm.keysIn_inserted 0 key v j, hchain]
    exact List.mem_map.mpr ⟨n, hn, rfl⟩
  obtain ⟨k₁, hk₁, hi₁⟩ := hkey j₁ l₁ h₁ hland₁
  obtain ⟨k₂, hk₂, hi₂⟩ := hkey j₂ l₂ h₂ hland₂
  exact h ⟨j₁, j₂, k₁, k₂, hne, hk₁, hk₂, hi₁, hi₂⟩

/-- Numeric keys are reduced modulo the bucket count, so those that meet after
a doubling met before. -/
theorem hashNum_of_double {s : Int} (h0 : 0 < s) (h1 : s * 2 < 2147483648) {a b : Nat}
    (h : hashNum a (s * 2) = hashNum b (s * 2)) : hashNum a s = hashNum b s := by
  have hs : asSize s = s.toNat := asSize_of_nonneg (by omega) (by omega)
  have hs2 : asSize (s * 2) = s.toNat * 2 := by
    rw [asSize_of_nonneg (by omega) (by omega)]
    omega
  unfold hashNum mod at h ⊢
  rw [hs2] at h
  rw [hs]
  have hpos : 0 < s.toNat := by omega
  have hlt : ∀ x : Nat, x % (s.toNat * 2) < 4294967296 := by
    intro x
    have := Nat.mod_lt x (show 0 < s.toNat * 2 by omega)
    omega
  have heq := congrArg UInt32.toNat h
  rw [UInt32.toNat_ofNat', UInt32.toNat_ofNat', Nat.mod_eq_of_lt (hlt a),
    Nat.mod_eq_of_lt (hlt b)] at heq
  have hmod : a % s.toNat = b % s.toNat := by
    rw [← Nat.mod_mul_right_mod a s.toNat 2, ← Nat.mod_mul_right_mod b s.toNat 2, heq]
  rw [hmod]

/-- Where all keys are numeric no chains are merged. -/
theorem LMap.Inv.not_merges (hm : m.Inv) (hg : m.CanGrow) {key : Key} (hk : key.Fits)
    (hnum : ∀ k ∈ m.keysWith key, ∃ idx, k = some (.num idx)) (i : Nat) : ¬ m.Merges key i := by
  have hpos := hm.pos
  -- a key of a chain is a numeric key that hashes to the index of the chain
  have hchain : ∀ j k, k ∈ m.keysIn key j → ∃ idx, k = some (.num idx)
      ∧ (hashNum idx.toNat m.size).toNat = j := by
    intro j k hmem
    have hwith := LMap.keysIn_subset hmem
    have hstored : ∃ k', k = some k' ∧ bucket m.size k' = j := by
      rcases List.mem_append.mp hmem with hmem | hmem
      · obtain ⟨n, hn, rfl⟩ := List.mem_map.mp hmem
        obtain ⟨l, hl, hnl⟩ := LMap.mem_chainAt hn
        exact hm.placed j l hl n hnl
      · split at hmem
        next habs =>
          rw [List.mem_singleton.mp hmem]
          exact ⟨key, storedKey_newNode hk 0 .nil, habs.2⟩
        next => exact absurd hmem (by simp)
    obtain ⟨k', rfl, hj⟩ := hstored
    obtain ⟨idx, hidx⟩ := hnum _ hwith
    cases hidx
    exact ⟨idx, rfl, hj⟩
  rintro ⟨j₁, j₂, k₁, k₂, hne, hk₁, hk₂, hi₁, hi₂⟩
  obtain ⟨a, rfl, ha⟩ := hchain j₁ k₁ hk₁
  obtain ⟨b, rfl, hb⟩ := hchain j₂ k₂ hk₂
  have hi : (hashNum a.toNat (m.size * 2)).toNat = (hashNum b.toNat (m.size * 2)).toNat :=
    (Option.some.inj hi₁).trans (Option.some.inj hi₂).symm
  apply hne
  rw [← ha, ← hb, hashNum_of_double hpos hg (UInt32.toNat_inj.mp hi)]

/-- No chain of the current map of `w'` is longer than the longest chain that
`_insert_value` left in `m` for the call `c`, which the expansion then finds. -/
def World.NoWorse (w' : World) (t : Addr) (m : LMap) (c : SetCall) : Prop :=
  ∃ m', w'.current t = some m' ∧ ∀ brk v ins, v.type = c.arg.type →
    m.insertValue brk c.key v 0 = some ins → ∀ l ∈ m'.data, l.length ≤ ins.map.longest

/-- A doubling makes the chains no worse exactly when no merged chain gets more
keys than the longest chain had. -/
theorem doubling_noWorse_iff {calls : List SetCall} {rs : List Int} {r : Int} {w₁ w₂ : World}
    (hw : w.Tidy) (hnew : w.newTable = some (t, w₀)) (hx : w₀.setAll t calls = some (rs, w₁))
    (hm : w₁.current t = some m) (hexp : m.Expands c) (hset : w₁.set t c = some (r, w₂)) :
    w₂.NoWorse t m c
      ↔ ∀ i, m.Merges c.key i → m.landing c.key i ≤ m.longestWith c.key := by
  obtain ⟨tb₀, h₀⟩ := World.Sound.newTable hw hnew
  obtain ⟨tb₁, m₁, h₁⟩ := h₀.setAll hx
  rw [h₁.toOwns.current] at hm
  cases hm
  obtain ⟨tb₂, m₂, h₂, heff⟩ := h₁.set_effect hset
  -- the lengths of the new chains, from the keys alone
  have hlen : ∀ i, (m₂.chainAt i).length = m.landing c.key i := by
    cases heff with
    | same hi _ => exact absurd hexp.1 hi
    | inserted _ brk v hv hg hr =>
      rcases hg with ⟨hd, -⟩ | ⟨hd, b, old, b', heq⟩
      · exact absurd hexp.2 hd
      · exact h₁.wf.length_landing hv.type_ne_nil (hr hd) heq
  -- and the longest chain that the expansion found
  have hbefore : ∀ brk v, ∃ ins, m.insertValue brk c.key v 0 = some ins
      ∧ ins.map.longest = m.longestWith c.key := by
    intro brk v
    obtain ⟨brk', -, heq⟩ := h₁.wf.insertValue_eq c.key brk v
    exact ⟨_, heq, h₁.wf.toSized.longest_inserted brk c.key v⟩
  have hiff : w₂.NoWorse t m c ↔ m₂.longest ≤ m.longestWith c.key := by
    constructor
    · rintro ⟨m', hm', hle⟩
      rw [h₂.toOwns.current] at hm'
      cases hm'
      obtain ⟨ins, heq, hlong⟩ := hbefore 0 { Value.blank with type := c.arg.type }
      rw [← hlong]
      exact LMap.longest_le.mpr (hle 0 _ ins rfl heq)
    · intro hle
      refine ⟨m₂, h₂.toOwns.current, ?_⟩
      intro brk v ins _ hins
      obtain ⟨ins', heq, hlong⟩ := hbefore brk v
      rw [hins] at heq
      cases heq
      rw [hlong]
      exact LMap.longest_le.mp hle
  rw [hiff, LMap.longest_le_iff]
  constructor
  · intro h i _
    rw [← hlen i]
    exact h i
  · intro h i
    rw [hlen i]
    by_cases hi : m.Merges c.key i
    · exact h i hi
    · exact h₁.wf.toSized.landing_le hi

/-- The eighth key of a chain: its keys spread over two. -/
theorem doubling_noWorse_iff_stride :
    ∃ t w₀ w₁ w₂ m rs r, World.empty.newTable = some (t, w₀)
      ∧ w₀.setAll t (strideCalls 29 7) = some (rs, w₁) ∧ w₁.current t = some m
      ∧ m.Expands ⟨.num 203, .number 1, .blank⟩
      ∧ w₁.set t ⟨.num 203, .number 1, .blank⟩ = some (r, w₂)
      ∧ (w₂.NoWorse t m ⟨.num 203, .number 1, .blank⟩
        ↔ ∀ i, m.Merges (.num 203) i → m.landing (.num 203) i ≤ m.longestWith (.num 203)) := by
  have hall : (World.empty.newTable.bind fun p =>
      (p.2.setAll p.1 (strideCalls 29 7)).bind fun q =>
        (q.2.current p.1).bind fun m =>
          (q.2.set p.1 ⟨.num 203, .number 1, .blank⟩).map fun _ =>
            decide (m.Expands ⟨.num 203, .number 1, .blank⟩)) = some true := by decide +kernel
  obtain ⟨⟨t, w₀⟩, hnew, hall⟩ := Option.bind_eq_some_iff.mp hall
  obtain ⟨⟨rs, w₁⟩, hrun, hall⟩ := Option.bind_eq_some_iff.mp hall
  obtain ⟨m, hm, hall⟩ := Option.bind_eq_some_iff.mp hall
  obtain ⟨⟨r, w₂⟩, hset, hexp⟩ := Option.map_eq_some_iff.mp hall
  have hexp := of_decide_eq_true hexp
  exact ⟨t, w₀, w₁, w₂, m, rs, r, hnew, hrun, hm, hexp, hset,
    doubling_noWorse_iff World.empty_tidy hnew hrun hm hexp hset⟩

/-- Calls on string keys of one byte each. -/
def byteCalls (bytes : Bytes) : List SetCall :=
  bytes.map (fun b => ⟨.str [b], .number 0, .blank⟩)

/-- Two chains of 29 buckets that the mask 28 keeps apart and the mask 57
does not: seven keys in one, then seven in the other. -/
def mergedBytes : Bytes :=
  [229, 231, 37, 39, 101, 103, 165, 225, 227, 33, 35, 97, 99, 161]

/-- The eighth key of the second chain: before the expansion no chain is longer
than 8, afterwards one has 15 nodes. -/
theorem doubling_merges :
    ∃ t w₀ w₁ w₂ m m' rs r, World.empty.newTable = some (t, w₀)
      ∧ w₀.setAll t (byteCalls mergedBytes) = some (rs, w₁) ∧ w₁.current t = some m
      ∧ m.Expands ⟨.str [163], .number 0, .blank⟩
      ∧ w₁.set t ⟨.str [163], .number 0, .blank⟩ = some (r, w₂) ∧ w₂.current t = some m'
      ∧ m.longestWith (.str [163]) = 8 ∧ m'.longest = 15
      ∧ ¬ w₂.NoWorse t m ⟨.str [163], .number 0, .blank⟩ := by
  have hall : (World.empty.newTable.bind fun p =>
      (p.2.setAll p.1 (byteCalls mergedBytes)).bind fun q =>
        (q.2.current p.1).bind fun m => (m.insertValue 0 (.str [163]) ⟨0, .number, 0⟩ 0).bind fun ins =>
          (q.2.set p.1 ⟨.str [163], .number 0, .blank⟩).bind fun x =>
            (x.2.current p.1).map fun m' =>
              (decide (m.Expands ⟨.str [163], .number 0, .blank⟩), m.longestWith (.str [163]),
                ins.map.longest, m'.longest))
      = some (true, 8, 8, 15) := by decide +kernel
  obtain ⟨⟨t, w₀⟩, hnew, hall⟩ := Option.bind_eq_some_iff.mp hall
  obtain ⟨⟨rs, w₁⟩, hrun, hall⟩ := Option.bind_eq_some_iff.mp hall
  obtain ⟨m, hm, hall⟩ := Option.bind_eq_some_iff.mp hall
  obtain ⟨ins, hins, hall⟩ := Option.bind_eq_some_iff.mp hall
  obtain ⟨⟨r, w₂⟩, hset, hall⟩ := Option.bind_eq_some_iff.mp hall
  obtain ⟨m', hm', hall⟩ := Option.map_eq_some_iff.mp hall
  simp only [Prod.mk.injEq] at hall
  obtain ⟨hexp, hwith, hbefore, hafter⟩ := hall
  refine ⟨t, w₀, w₁, w₂, m, m', rs, r, hnew, hrun, hm, of_decide_eq_true hexp, hset, hm', hwith,
    hafter, ?_⟩
  rintro ⟨m₂, hm₂, hle⟩
  rw [hm'] at hm₂
  cases hm₂
  have hlong := LMap.longest_le.mpr (hle 0 ⟨0, .number, 0⟩ ins rfl hins)
  rw [hbefore, hafter] at hlong
  exact absurd hlong (by decide)

end LightTable
