/-
  LightTable.Table.Steps
  ──────────────────────
  What each function of the table does to the world, one lemma a function.

  `World.Owns w t tb m` says that `t` is a table whose current map is `m`,
  grabbed by nobody.  A search leaves the world as it was; an insert changes
  the map of its own table, and doubling it frees the old nodes but clears no
  value, since every value was shared with its copy first.
-/
import LightTable.Table.Def
import LightTable.Map.Layout

namespace LightTable

open ChainedHash

/-! ## §1. A table at rest. -/

/-- The table at `t` is `tb`, and its current map is `m` with no grab out. -/
structure World.Owns (w : World) (t : Addr) (tb : Table) (m : LMap) : Prop where
  table : w.tables t = some tb
  map : tb.maps tb.map = some m
  ref : m.ref = 1
  below : tb.map < w.brk

/-- Everything but the table at `t` is as it was. -/
structure World.Frame (t : Addr) (w w' : World) : Prop where
  lstrings : w'.lstrings = w.lstrings
  slots : w'.slots = w.slots
  tables : ∀ t', t' ≠ t → w'.tables t' = w.tables t'
  brk : w.brk ≤ w'.brk
  destroyed : w'.destroyed = w.destroyed

theorem World.Frame.trans {t : Addr} {w w' w'' : World} (h₁ : World.Frame t w w')
    (h₂ : World.Frame t w' w'') : World.Frame t w w'' where
  lstrings := h₂.lstrings.trans h₁.lstrings
  slots := h₂.slots.trans h₁.slots
  tables := fun t' ht => (h₂.tables t' ht).trans (h₁.tables t' ht)
  brk := Nat.le_trans h₁.brk h₂.brk
  destroyed := h₂.destroyed.trans h₁.destroyed

@[simp] theorem World.putTable_tables_self (w : World) (t : Addr) (tb : Table) :
    (w.putTable t tb).tables t = some tb := Function.update_self ..

theorem World.putTable_tables_ne (w : World) {t t' : Addr} (h : t' ≠ t) (tb : Table) :
    (w.putTable t tb).tables t' = w.tables t' := Function.update_of_ne h ..

@[simp] theorem World.putTable_brk (w : World) (t : Addr) (tb : Table) :
    (w.putTable t tb).brk = w.brk := rfl

@[simp] theorem World.putTable_putTable (w : World) (t : Addr) (tb tb' : Table) :
    (w.putTable t tb).putTable t tb' = w.putTable t tb' := by
  unfold World.putTable
  simp only [Function.update_idem]

theorem World.putTable_same {w : World} {t : Addr} {tb : Table} (h : w.tables t = some tb) :
    w.putTable t tb = w := by
  unfold World.putTable
  rw [← h, Function.update_eq_self]

@[simp] theorem Table.putMap_self (tb : Table) (a : Addr) (m : LMap) :
    (tb.putMap a m).maps a = some m := Function.update_self ..

@[simp] theorem Table.putMap_map (tb : Table) (a : Addr) (m : LMap) :
    (tb.putMap a m).map = tb.map := rfl

@[simp] theorem Table.putMap_putMap (tb : Table) (a : Addr) (m m' : LMap) :
    (tb.putMap a m).putMap a m' = tb.putMap a m' := by
  unfold Table.putMap
  simp only [Function.update_idem]

theorem Table.putMap_same {tb : Table} {a : Addr} {m : LMap} (h : tb.maps a = some m) :
    tb.putMap a m = tb := by
  unfold Table.putMap
  rw [← h, Function.update_eq_self]

/-! ## §2. Search. -/

variable {w : World} {t : Addr} {tb : Table} {m : LMap}

/-- A grab raises the count of the current map to 2. -/
theorem World.Owns.grabMap (h : w.Owns t tb m) :
    w.grabMap t = some (tb.map, w.putTable t (tb.putMap tb.map { m with ref := 2 })) := by
  have href : asInt (m.ref + 1) = 2 := by rw [h.ref]; rfl
  unfold World.grabMap Table.grabMap
  simp [h.table, h.map, href]

/-- The matching release restores the world. -/
theorem World.Owns.releaseMap (h : w.Owns t tb m) :
    (w.putTable t (tb.putMap tb.map { m with ref := 2 })).releaseMap t tb.map = some w := by
  have hm1 : ({ m with ref := 1 } : LMap) = m := by
    have := h.ref
    cases m
    simp_all
  have h1 : asInt (2 - 1) = 1 := rfl
  unfold World.releaseMap Table.releaseMap World.reap
  simp only [World.putTable_tables_self, Option.bind_eq_bind, Option.bind_some,
    Table.putMap_map, Table.putMap_self, Table.putMap_putMap, h1, hm1, Table.putMap_same h.map,
    World.putTable_putTable, Option.pure_def]
  rw [if_pos (by decide)]
  simp only [Option.bind_some, World.putTable_same h.table]

/-- A search finds what the map holds and leaves the world as it was. -/
theorem World.Owns.searchTable (h : w.Owns t tb m) (hm : m.Wf) (key : Key) (tmp : Value) :
    w.searchTable t key tmp = some (m.result key tmp, w) := by
  have hsearch : ({ m with ref := 2 } : LMap).search key tmp = m.search key tmp := rfl
  unfold World.searchTable World.searchMap World.searchMapLoop
  simp only [h.grabMap, Option.bind_eq_bind, Option.bind_some, World.putTable_tables_self,
    Table.putMap_self, hsearch, hm.search_eq, h.releaseMap, h.table, if_true, Option.pure_def]

/-- `get_type` gives what the view holds; for an absent key it gives `LT_NIL`
and whatever `tmp` held. -/
theorem World.Owns.getType (h : w.Owns t tb m) (hm : m.Wf) (key : Key) (tmp : Value) :
    w.getType t key tmp = some (((m.view key).getD (.nil, tmp.v)), w) := by
  unfold World.getType LMap.view
  rw [h.searchTable hm, LMap.result]
  cases m.find key <;> rfl

/-- The getters of numbers, booleans and user data give the word that is
stored when the type is theirs. -/
theorem World.Owns.getPlain (h : w.Owns t tb m) (hm : m.Wf) {key : Key} {type : LType} {v : Word}
    (hv : m.view key = some (type, v)) (tmp : Value) :
    w.getPlain t key tmp type = some (v, w) := by
  unfold LMap.view at hv
  obtain ⟨n, hn, hnv⟩ := Option.map_eq_some_iff.mp hv
  unfold World.getPlain
  rw [h.searchTable hm, LMap.result_found hn]
  simp only [Prod.mk.injEq] at hnv
  simp [hnv.1, hnv.2]

/-! ## §3. Freeing an old map. -/

/-- The account of memory from `w` to `w'`: every block that was held, and
every block handed out since, is now held or was freed, as often as before. -/
structure World.Accounts (w : World) (held : List Addr) (w' : World) (held' : List Addr) : Prop where
  brk : w.brk ≤ w'.brk
  count : ∀ a, w'.freed.count a + held'.count a
    = w.freed.count a + held.count a + handedOut w.brk w'.brk a

theorem World.Accounts.refl (w : World) (held : List Addr) : w.Accounts held w held where
  brk := Nat.le_refl _
  count := fun a => by rw [handedOut_self, Nat.add_zero]

theorem World.Accounts.trans {w w' w'' : World} {l l' l'' : List Addr} (h₁ : w.Accounts l w' l')
    (h₂ : w'.Accounts l' w'' l'') : w.Accounts l w'' l'' where
  brk := Nat.le_trans h₁.brk h₂.brk
  count := by
    intro a
    have := h₁.count a
    have := h₂.count a
    have := handedOut_add h₁.brk h₂.brk a
    omega

/-- Blocks held by others stay held. -/
theorem World.Accounts.append {w w' : World} {l l' : List Addr} (h : w.Accounts l w' l')
    (others : List Addr) : w.Accounts (l ++ others) w' (l' ++ others) where
  brk := h.brk
  count := by
    intro a
    have := h.count a
    rw [List.count_append, List.count_append]
    omega

/-- Only how often a block is held matters. -/
theorem World.Accounts.congr {w w' : World} {l l' k k' : List Addr} (h : w.Accounts l w' l')
    (hl : ∀ a, k.count a = l.count a) (hl' : ∀ a, k'.count a = l'.count a) : w.Accounts k w' k' where
  brk := h.brk
  count := by
    intro a
    rw [hl a, hl' a]
    exact h.count a

/-- Nodes whose values have other users are freed without clearing them. -/
theorem deleteNodes_shared (release : Addr → World → Option World) :
    ∀ (l : List Node) (w : World), (∀ n ∈ l, n.v.ref ≠ 1) →
      l.foldlM (deleteNode release) w
        = some { w with freed := l.reverse.flatMap Node.blocks ++ w.freed }
  | [], w, _ => rfl
  | n :: rest, w, h => by
      have hn : n.v.ref ≠ 1 := h n (by simp)
      have h₁ : deleteNode release w n = some { w with freed := n.blocks ++ w.freed } := by
        unfold deleteNode Node.blocks
        cases n.strkey with
        | none => simp [hn, World.free]
        | some p => simp [hn, World.free]
      rw [List.foldlM_cons, h₁]
      simp only [Option.bind_eq_bind, Option.bind_some]
      rw [deleteNodes_shared release rest _ (fun x hx => h x (by simp [hx]))]
      simp [List.flatMap_append]

/-- Deleting an old map whose values were all shared with copies frees its
nodes, their key strings and the map object. -/
theorem deleteMap_bump (release : Addr → World → Option World) (a : Addr) {m : LMap} (hm : m.Wf)
    (w : World) :
    deleteMap release a m.bump w
      = some { w with freed := a :: (m.entries.reverse.flatMap Node.blocks ++ w.freed) } := by
  have hall : (m.bump.data.take m.bump.size.toNat).flatten = m.entries.map Node.bump := by
    show ((m.data.map (List.map Node.bump)).take m.size.toNat).flatten = _
    rw [← List.map_take, hm.take_data, ← m.bump_entries]
    rfl
  have hshared : ∀ n ∈ m.entries.map Node.bump, n.v.ref ≠ 1 := by
    intro n hn
    obtain ⟨x, hx, rfl⟩ := List.mem_map.mp hn
    show x.v.ref + 1 ≠ 1
    rw [hm.vref x hx]
    decide
  have hblocks : (m.entries.map Node.bump).reverse.flatMap Node.blocks
      = m.entries.reverse.flatMap Node.blocks := by
    rw [← List.map_reverse, List.flatMap_map]
    rfl
  unfold deleteMap deleteWithoutData
  rw [hall, deleteNodes_shared release _ w hshared, hblocks]
  rfl

theorem count_reverse_blocks (m : LMap) (a : Addr) :
    (m.entries.reverse.flatMap Node.blocks).count a = m.blocks.count a :=
  count_flatMap_perm m.entries.reverse_perm a

/-! ## §4. Expanding. -/

/-- `_expand_hash` when the map can be doubled: the copy becomes the current
map, and nothing else that can be read changes. -/
theorem World.Owns.expandHash (h : w.Owns t tb m) (hm : m.Wf) (hg : m.CanGrow)
    (hr : ∀ n ∈ m.entries, n.storedKey ≠ none) :
    ∃ w' tb' nm brk', m.doubled (w.brk + 1) = some (nm, m.bump, brk')
      ∧ w.expandHash t = some w' ∧ w'.Owns t tb' nm ∧ World.Frame t w w'
      ∧ tb'.ref = tb.ref ∧ w.Accounts (tb.map :: m.blocks) w' (tb'.map :: nm.blocks)
      ∧ (∀ a ∈ tb'.map :: nm.blocks, w.brk ≤ a)
      ∧ w'.freed = tb.map :: (m.entries.reverse.flatMap Node.blocks ++ w.freed) := by
  obtain ⟨nm, brk', heq, hle, -, -, href, -, -, -⟩ := hm.doubled_spec hg hr (w.brk + 1)
  have hblocks := fun a => (hm.doubled_blocks ⟨hg, hr⟩ heq a).2
  have hne : tb.map ≠ w.brk := Nat.ne_of_lt h.below
  have hbumpref : asInt (m.bump.ref - 1) = 0 := by
    show asInt (m.ref - 1) = 0
    rw [h.ref]
    rfl
  -- the table with the old map still current, then without it
  set tb₁ := (tb.putMap tb.map m.bump).putMap w.brk nm with htb₁
  have hold : tb₁.maps tb.map = some m.bump := by
    simp [htb₁, Table.putMap, hne]
  have hnew : tb₁.maps w.brk = some nm := by simp [htb₁]
  set tb₂ : Table := { tb₁.dropMap tb.map with map := w.brk } with htb₂
  have hcur : tb₂.maps tb₂.map = some nm := by
    show Function.update tb₁.maps tb.map none w.brk = some nm
    rw [Function.update_of_ne (Ne.symm hne)]
    exact hnew
  have hupd : tb₁.updateMap w.brk = some (some m.bump, tb₂) := by
    unfold Table.updateMap
    have hmap : tb₁.map = tb.map := rfl
    simp only [hmap, hold, Option.bind_eq_bind, Option.bind_some, hbumpref, if_true,
      Option.pure_def]
    rfl
  set w₂ : World := ({ w with brk := brk' } : World).putTable t tb₂ with hw₂
  have hfs := deleteMap_bump (releaseFuel brk') tb.map hm w₂
  refine ⟨{ w₂ with freed := tb.map :: (m.entries.reverse.flatMap Node.blocks ++ w₂.freed) }, tb₂,
    nm, brk', heq, ?_, ⟨World.putTable_tables_self _ _ _, hcur, href, ?_⟩,
    ⟨rfl, rfl, fun t' ht => World.putTable_tables_ne _ ht _, ?_, rfl⟩, rfl, ⟨?_, ?_⟩, ?_, rfl⟩
  · unfold World.expandHash
    simp only [h.table, h.map, Option.bind_eq_bind, Option.bind_some]
    rw [if_pos ((hm.toSized.canGrow_iff).mp hg), heq]
    simp only [Option.bind_some, World.updateMap, World.putTable_tables_self, ← htb₁, hupd,
      Option.bind_eq_bind, World.putTable_putTable, World.reap]
    exact hfs
  · exact hle
  · exact Nat.le_of_succ_le hle
  · exact Nat.le_of_succ_le hle
  · intro a
    show (tb.map :: (m.entries.reverse.flatMap Node.blocks ++ w.freed)).count a
      + (w.brk :: nm.blocks).count a = _ + _ + handedOut w.brk brk' a
    rw [handedOut_add (Nat.le_succ w.brk) hle, ← handedOut_one, ← hblocks a]
    simp only [List.count_cons, List.count_append, List.count_nil, count_reverse_blocks]
    omega
  · intro a ha
    rcases List.mem_cons.mp ha with rfl | ha
    · exact Nat.le_refl w.brk
    · have hpos := List.count_pos_iff.mpr ha
      rw [hblocks a] at hpos
      unfold handedOut at hpos
      split at hpos
      next h => exact Nat.le_of_succ_le h.1
      next => exact absurd hpos (Nat.lt_irrefl 0)

/-- `_expand_hash` only returns when the map can be doubled. -/
theorem World.Owns.of_expandHash (h : w.Owns t tb m) (hm : m.Wf) {w' : World}
    (he : w.expandHash t = some w') :
    m.CanGrow ∧ ∀ n ∈ m.entries, n.storedKey ≠ none := by
  unfold World.expandHash at he
  simp only [h.table, h.map, Option.bind_eq_bind, Option.bind_some] at he
  split at he
  next hlt =>
    obtain ⟨x, hx, -⟩ := Option.bind_eq_some_iff.mp he
    exact ⟨(hm.toSized.canGrow_iff).mpr hlt, hm.storedKey_of_doubled hx⟩
  next => exact absurd he (by simp)

/-! ## §5. Insert. -/

/-- The world after `_insert_value`, before any expansion. -/
def World.withInserted (w : World) (t : Addr) (tb : Table) (r : Inserted) : World :=
  { w with brk := r.brk }.putTable t (tb.putMap tb.map r.map)

theorem World.Owns.withInserted (h : w.Owns t tb m) {r : Inserted} (href : r.map.ref = m.ref)
    (hle : w.brk ≤ r.brk) :
    (w.withInserted t tb r).Owns t (tb.putMap tb.map r.map) r.map
      ∧ World.Frame t w (w.withInserted t tb r) :=
  ⟨⟨World.putTable_tables_self _ _ _, Table.putMap_self _ _ _, href.trans h.ref,
    Nat.lt_of_lt_of_le h.below hle⟩,
   ⟨rfl, rfl, fun _ ht => World.putTable_tables_ne _ ht _, hle, rfl⟩⟩

/-- `_insert_value` frees nothing, and what it takes is the linked node. -/
theorem World.accounts_withInserted (w : World) (t : Addr) (tb : Table) (hm : m.Wf) {key : Key} {v : Value} {r : Inserted}
    (hr : m.insertValue w.brk key v 0 = some r) :
    w.Accounts (tb.map :: m.blocks) (w.withInserted t tb r) (tb.map :: r.map.blocks) where
  brk := (hm.insertValue_blocks hr 0).1
  count := by
    intro a
    have h := (hm.insertValue_blocks hr a).2
    show w.freed.count a + (tb.map :: r.map.blocks).count a = _ + _ + handedOut w.brk r.brk a
    simp only [List.count_cons]
    omega

/-- `_insert_table` is `_insert_value`, followed by an expansion from depth
`MAX_HASH_DEPTH` on. -/
theorem World.Owns.insertTable_eq (h : w.Owns t tb m) {key : Key} {v : Value} {r : Inserted}
    (hr : m.insertValue w.brk key v 0 = some r) :
    w.insertTable t key v
      = if maxHashDepth ≤ r.depth then
          ((w.withInserted t tb r).expandHash t).map (fun w' => (r.type, w'))
        else some (r.type, w.withInserted t tb r) := by
  unfold World.insertTable World.insertMapValue
  simp only [h.table, h.map, hr, Option.bind_eq_bind, Option.bind_some]
  split
  · cases h2 : ((w.withInserted t tb r).expandHash t) <;> simp [World.withInserted] at h2 ⊢ <;>
      simp [h2]
  · rfl

/-- The bucket count after an insert that walked `depth` nodes. -/
def grownSize (size : Int) (depth : Nat) : Int :=
  if maxHashDepth ≤ depth then size * 2 else size

/-- `_insert_table` on any table: the type the key had comes back, and the
current map is the inserted map, doubled from depth `MAX_HASH_DEPTH` on. -/
theorem World.Owns.insertTable (h : w.Owns t tb m) (hm : m.Wf) (key : Key) {v : Value}
    (hv : v.type ≠ .nil)
    (hg : maxHashDepth ≤ m.depth key → (m.inserted w.brk key v).Ready) :
    ∃ w' tb' m', w.insertTable t key v = some (m.typeAt key, w') ∧ w'.Owns t tb' m'
      ∧ (m.inserted w.brk key v).Grown (maxHashDepth ≤ m.depth key) m'
      ∧ m'.size = grownSize m.size (m.depth key) ∧ World.Frame t w w' ∧ tb'.ref = tb.ref
      ∧ w.Accounts (tb.map :: m.blocks) w' (tb'.map :: m'.blocks)
      ∧ (maxHashDepth ≤ m.depth key → ∀ a ∈ tb'.map :: m'.blocks, w.brk ≤ a)
      ∧ w'.freed = (if maxHashDepth ≤ m.depth key then
          tb.map :: (m.inserted w.brk key v).entries.reverse.flatMap Node.blocks else []) ++ w.freed := by
  obtain ⟨brk', hle, hr⟩ := hm.insertValue_eq key w.brk v
  obtain ⟨howns, hframe⟩ := h.withInserted
    (r := ⟨m.typeAt key, m.depth key, m.inserted w.brk key v, brk'⟩) (m.inserted_ref _ _) hle
  have hacc := World.accounts_withInserted w t tb hm hr
  rw [h.insertTable_eq hr]
  unfold grownSize
  by_cases hd : maxHashDepth ≤ m.depth key
  · -- the chain was full: the map is doubled and the old one freed
    obtain ⟨w', tb', nm, b, heq, hexp, howns', hframe', htb, hacc', hnew, hfreed⟩ :=
      howns.expandHash (hm.inserted key w.brk hv) (hg hd).room (hg hd).keys
    obtain ⟨nm', b', heq', -, -, hsize, -⟩ :=
      (hm.inserted key w.brk hv).doubled_spec (hg hd).room (hg hd).keys _
    have hnm : nm' = nm := by
      have := heq'.symm.trans heq
      simp only [Option.some.injEq, Prod.mk.injEq] at this
      exact this.1
    refine ⟨w', tb', nm, ?_, howns', Or.inr ⟨hd, _, _, _, heq⟩, ?_, hframe.trans hframe', htb,
      hacc.trans hacc', fun _ a ha => Nat.le_trans hframe.brk (hnew a ha), ?_⟩
    · show (if maxHashDepth ≤ m.depth key then _ else _) = _
      rw [if_pos hd, hexp]
      rfl
    · rw [if_pos hd, ← hnm, hsize, LMap.inserted_size]
    · rw [if_pos hd, hfreed]
      rfl
  · refine ⟨_, _, _, ?_, howns, Or.inl ⟨hd, rfl⟩, ?_, hframe, rfl, hacc, fun h => absurd h hd, ?_⟩
    · show (if maxHashDepth ≤ m.depth key then _ else _) = _
      rw [if_neg hd]
    · rw [if_neg hd]
      exact m.inserted_size _ _
    · rw [if_neg hd]
      rfl

/-- `_insert_table` only returns when the map needs no expansion or can be
doubled. -/
theorem World.Owns.of_insertTable (h : w.Owns t tb m) (hm : m.Wf) {key : Key} {v : Value}
    (hv : v.type ≠ .nil) {x : LType × World} (hx : w.insertTable t key v = some x)
    (hd : maxHashDepth ≤ m.depth key) : (m.inserted w.brk key v).Ready := by
  obtain ⟨brk', hle, hr⟩ := hm.insertValue_eq key w.brk v
  obtain ⟨howns, -⟩ := h.withInserted
    (r := ⟨m.typeAt key, m.depth key, m.inserted w.brk key v, brk'⟩) (m.inserted_ref _ _) hle
  rw [h.insertTable_eq hr, if_pos hd] at hx
  obtain ⟨w', hexp, -⟩ := Option.map_eq_some_iff.mp hx
  obtain ⟨hroom, hkeys⟩ := howns.of_expandHash (hm.inserted key w.brk hv) hexp
  exact ⟨hroom, hkeys⟩

/-- `_insert_table` on a hash table in order: the type the key had comes back,
and the view changes under the key only, expansion or not. -/
theorem World.Owns.insertTable_spec (h : w.Owns t tb m) (hm : m.Inv) {key : Key} (hk : key.Fits)
    {v : Value} (hv : v.type ≠ .nil) (hg : maxHashDepth ≤ m.depth key → m.CanGrow) :
    ∃ w' tb' m', w.insertTable t key v = some (m.typeAt key, w')
      ∧ w'.Owns t tb' m' ∧ m'.Inv
      ∧ m'.view = Function.update m.view key (some (written (m.view key) v.type v.v))
      ∧ m'.size = grownSize m.size (m.depth key)
      ∧ World.Frame t w w' ∧ tb'.ref = tb.ref := by
  have hinv := hm.inserted hk w.brk hv
  have hroom : maxHashDepth ≤ m.depth key → (m.inserted w.brk key v).CanGrow := by
    intro hd
    show (m.inserted w.brk key v).size * 2 < 2147483648
    rw [LMap.inserted_size]
    exact hg hd
  obtain ⟨w', tb', m', heq, howns, hgrown, hsize, hframe, htb, -⟩ :=
    h.insertTable hm.toWf key hv (fun hd => ⟨hroom hd, hinv.storedKey_ne_none⟩)
  obtain ⟨hinv', hview⟩ := hinv.grown hgrown hroom
  exact ⟨w', tb', m', heq, howns, hinv', hview.trans (hm.toSized.view_inserted hk w.brk v), hsize,
    hframe, htb⟩

/-! ## §6. Strings. -/

@[simp] theorem World.putSlot_slots_self (w : World) (s : Addr) (sl : StringSlot) :
    (w.putSlot s sl).slots s = some sl := Function.update_self ..

@[simp] theorem World.putSlot_tables (w : World) (s : Addr) (sl : StringSlot) :
    (w.putSlot s sl).tables = w.tables := rfl

@[simp] theorem World.putLString_tables (w : World) (s : Addr) (ls : LString) :
    (w.putLString s ls).tables = w.tables := rfl

/-- Owning a table does not depend on the strings. -/
theorem World.Owns.congr (h : w.Owns t tb m) {w' : World} (ht : w'.tables = w.tables)
    (hb : w.brk ≤ w'.brk) : w'.Owns t tb m :=
  ⟨by rw [ht]; exact h.table, h.map, h.ref, Nat.lt_of_lt_of_le h.below hb⟩

/-- Grabbing and releasing the slot of a string nobody else holds gives the
slot and leaves the world as it was. -/
theorem World.grab_release {s S : Addr} {sl : StringSlot} (hs : w.lstrings s = some ⟨S⟩)
    (hS : w.slots S = some sl) (href : sl.ref = 1) :
    ∃ w₁, w.grabString s = some (S, w₁) ∧ w₁.slots S = some { sl with ref := 2 }
      ∧ w₁.releaseString S = some w := by
  have h2 : asInt (sl.ref + 1) = 2 := by rw [href]; rfl
  have h1 : asInt (2 - 1) = 1 := rfl
  have hsl : ({ sl with ref := 1 } : StringSlot) = sl := by
    cases sl
    simp_all
  refine ⟨w.putSlot S { sl with ref := 2 }, ?_, World.putSlot_slots_self _ _ _, ?_⟩
  · unfold World.grabString
    simp [hs, hS, h2]
  · have hput : (w.putSlot S { sl with ref := 2 }).putSlot S { sl with ref := 1 } = w := by
      rw [hsl]
      unfold World.putSlot
      simp only [Function.update_idem]
      rw [← hS, Function.update_eq_self]
    unfold World.releaseString World.decSlot
    simp only [World.putSlot_slots_self, Option.bind_eq_bind, Option.bind_some, h1, Option.pure_def,
      hput]
    rw [if_pos (by decide)]

/-- `_update_string` on a string nobody holds: a fresh slot takes the place of
the old one, which is freed. -/
theorem World.updateString_spec {s S : Addr} {sl : StringSlot} (hs : w.lstrings s = some ⟨S⟩)
    (hS : w.slots S = some sl) (href : sl.ref = 1) (hlt : S < w.brk) (str : Bytes) :
    ∃ w', w.updateString s str = some w' ∧ w'.brk = w.brk + 1 ∧ w'.tables = w.tables
      ∧ w'.lstrings = Function.update w.lstrings s (some ⟨w.brk⟩)
      ∧ w'.slots = Function.update
          (Function.update w.slots w.brk (some (LightTable.newString str))) S none
      ∧ w'.freed = S :: w.freed := by
  have hne : S ≠ w.brk := Nat.ne_of_lt hlt
  have h0 : asInt (sl.ref - 1) = 0 := by rw [href]; rfl
  unfold World.updateString World.swapSlot World.newString World.decSlot World.freeSlot
  simp [World.putSlot, World.putLString, hs, hS, hne, h0, World.free]

end LightTable
