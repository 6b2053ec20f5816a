/-
  LightTable.Map.Copy
  ───────────────────
  Doubling a map.  `_copy_map` walks the old nodes in bucket order and links a
  copy of each at the head of its chain in the new map, so chains come out
  reversed and regrouped.  What is kept: the keys and values, node for node
  (`CopiedInto`), and with them every lookup (`LMap.Inv.doubled_spec`).
-/
import LightTable.Map.Insert

namespace LightTable

open ChainedHash

/-! ## §1. One node. -/

/-- The old node after its value was shared with a copy. -/
def Node.bump (n : Node) : Node := { n with v := { n.v with ref := n.v.ref + 1 } }

/-- The copy `_insert_node` links, for the key it read back. -/
def Node.copyAt (n : Node) (brk : Addr) (key : Key) : Node :=
  { (newNode brk key n.v.type).1 with v := n.v }

/-- The map with `n` linked at the head of the chain of `key`. -/
def LMap.push (m : LMap) (key : Key) (n : Node) : LMap :=
  m.setChain key (n :: (m.chain key).getD [])

/-- The key and the value of a node, which a copy takes over. -/
def Node.content (n : Node) : Option Key × Value := (n.storedKey, n.v)

theorem Node.copyAt_wf (n : Node) (brk : Addr) (key : Key) : (n.copyAt brk key).Wf :=
  (newNode_wf brk key n.v.type).withValue _

theorem Node.Wf.content_copyAt {n : Node} (hn : n.Wf) {key : Key} (hk : n.storedKey = some key)
    (brk : Addr) : (n.copyAt brk key).content = n.content := by
  have hs : (n.copyAt brk key).storedKey = some key :=
    storedKey_newNode (hn.storedKey_fits hk) brk n.v.type
  unfold Node.content
  rw [hs, hk]
  rfl

theorem LMap.Sized.insertNode_eq {m : LMap} (hm : m.Sized) {n : Node} {key : Key}
    (hk : n.storedKey = some key) (brk : Addr) :
    m.insertNode brk n
      = some (m.push key (n.copyAt brk key), n.bump, (newNode brk key n.v.type).2) := by
  obtain ⟨c, hc⟩ := hm.chain key
  unfold LMap.insertNode LMap.push
  rw [hk]
  simp only [Option.bind_eq_bind, Option.bind_some, hc, Option.getD_some]
  rfl

/-! ## §2. A list of nodes. -/

/-- Every node of `l` was copied into `m`, giving `m'`. -/
structure CopiedInto (l : List Node) (m m' : LMap) : Prop where
  sized : m'.Sized
  size : m'.size = m.size
  ref : m'.ref = m.ref
  index : m'.index = m.index
  copies : ∃ cs : List Node, cs.map Node.content = l.map Node.content ∧ (∀ c ∈ cs, c.Wf)
    ∧ m'.entries.Perm (cs ++ m.entries)
  placed : Placed Node.storedKey (bucket m.size) m.data →
    Placed Node.storedKey (bucket m'.size) m'.data
  -- copies are linked at the head, so the last node of `l` is found first
  find : ∀ key, (m'.find key).map Node.content
    = ((lookup Node.storedKey key l.reverse).or (m.find key)).map Node.content

theorem CopiedInto.nil {m : LMap} (hm : m.Sized) : CopiedInto [] m m where
  sized := hm
  size := rfl
  ref := rfl
  index := rfl
  copies := ⟨[], rfl, by simp, List.Perm.refl _⟩
  placed := id
  find := fun _ => rfl

theorem CopiedInto.trans {l₁ l₂ : List Node} {m m' m'' : LMap} (h₁ : CopiedInto l₁ m m')
    (h₂ : CopiedInto l₂ m' m'') : CopiedInto (l₁ ++ l₂) m m'' where
  sized := h₂.sized
  size := h₂.size.trans h₁.size
  ref := h₂.ref.trans h₁.ref
  index := h₂.index.trans h₁.index
  copies := by
    obtain ⟨cs₁, hc₁, hw₁, hp₁⟩ := h₁.copies
    obtain ⟨cs₂, hc₂, hw₂, hp₂⟩ := h₂.copies
    refine ⟨cs₁ ++ cs₂, by rw [List.map_append, List.map_append, hc₁, hc₂], ?_, ?_⟩
    · intro c hc
      rcases List.mem_append.mp hc with h | h
      · exact hw₁ c h
      · exact hw₂ c h
    · refine hp₂.trans ((hp₁.append_left cs₂).trans ?_)
      rw [← List.append_assoc]
      exact List.perm_append_comm.append_right _
  placed := fun h => h₂.placed (h₁.placed h)
  find := by
    intro key
    rw [h₂.find key, List.reverse_append, lookup_append]
    cases h : lookup Node.storedKey key l₂.reverse with
    | some n => rfl
    | none => exact h₁.find key

/-- A node pushed at the head of its chain hides what was under its key. -/
theorem LMap.Sized.find_push {m : LMap} (hm : m.Sized) {n : Node} {key : Key}
    (hk : n.storedKey = some key) (key' : Key) :
    (m.push key n).find key' = if key' = key then some n else m.find key' := by
  obtain ⟨c, hc⟩ := hm.chain key
  unfold LMap.push
  rw [hc, Option.getD_some, hm.find_setChain, lookup_cons, hk]
  by_cases hkk : key' = key
  · subst hkk
    simp
  · have hne : (some key : Option Key) ≠ some key' := fun h => hkk (Option.some.inj h).symm
    rw [if_neg hne, if_neg hkk]
    by_cases hb : bucket m.size key' = bucket m.size key
    · rw [if_pos hb, ← LMap.find_eq (by rw [LMap.chain_congr hb, hc])]
    · rw [if_neg hb]

theorem LMap.Sized.copiedInto_push {m : LMap} (hm : m.Sized) {n : Node} (hn : n.Wf) {key : Key}
    (hk : n.storedKey = some key) (brk : Addr) :
    CopiedInto [n] m (m.push key (n.copyAt brk key)) := by
  obtain ⟨c, hc⟩ := hm.chain key
  have hcontent := hn.content_copyAt hk brk
  have hpush : m.push key (n.copyAt brk key) = m.setChain key (n.copyAt brk key :: c) := by
    unfold LMap.push
    rw [hc]
    rfl
  have hfind := hm.find_push ((congrArg Prod.fst hcontent).trans hk)
  rw [hpush] at hfind ⊢
  refine ⟨hm.setChain key _, rfl, rfl, rfl, ⟨[n.copyAt brk key], ?_, ?_, ?_⟩, ?_, ?_⟩
  · simp [hcontent]
  · simpa using n.copyAt_wf brk key
  · exact flatten_set_perm (s := [n.copyAt brk key]) hc (List.Perm.refl _)
  · intro hp
    refine hp.set _ ?_
    intro x hx
    rcases List.mem_cons.mp hx with rfl | hx
    · exact ⟨key, (congrArg Prod.fst hcontent).trans hk, rfl⟩
    · exact hp _ c hc x hx
  · intro key'
    rw [hfind key', List.reverse_singleton, lookup_cons, hk]
    by_cases hkk : key' = key
    · simp [hkk, hcontent]
    · have hne : (some key : Option Key) ≠ some key' := fun h => hkk (Option.some.inj h).symm
      simp [hkk, hne]

/-- The nodes `_copy_map` can read a key from. -/
def Readable (l : List Node) : Prop := ∀ n ∈ l, n.Wf ∧ n.storedKey ≠ none

theorem LMap.Sized.copyChain_spec :
    ∀ (l : List Node) {m : LMap} (brk : Addr), m.Sized → Readable l →
      ∃ m' brk', m.copyChain brk l = some (m', l.map Node.bump, brk')
        ∧ CopiedInto l m m' ∧ brk ≤ brk'
  | [], m, brk, hm, _ => ⟨m, brk, rfl, CopiedInto.nil hm, Nat.le_refl _⟩
  | n :: rest, m, brk, hm, hl => by
      obtain ⟨hn, hsome⟩ := hl n (by simp)
      obtain ⟨key, hk⟩ := Option.ne_none_iff_exists'.mp hsome
      have h₁ := hm.copiedInto_push hn hk brk
      obtain ⟨m', brk', heq, h₂, hle⟩ := LMap.Sized.copyChain_spec rest
        (newNode brk key n.v.type).2 h₁.sized (fun x hx => hl x (by simp [hx]))
      refine ⟨m', brk', ?_, h₁.trans h₂, ?_⟩
      · unfold LMap.copyChain
        rw [hm.insertNode_eq hk]
        simp only [Option.bind_eq_bind, Option.bind_some, heq]
        rfl
      · refine Nat.le_trans ?_ hle
        cases key <;> simp [newNode]

theorem LMap.Sized.copyChains_spec :
    ∀ (b : List (List Node)) {m : LMap} (brk : Addr), m.Sized → Readable b.flatten →
      ∃ m' brk', m.copyChains brk b = some (m', b.map (List.map Node.bump), brk')
        ∧ CopiedInto b.flatten m m' ∧ brk ≤ brk'
  | [], m, brk, hm, _ => ⟨m, brk, rfl, CopiedInto.nil hm, Nat.le_refl _⟩
  | l :: rest, m, brk, hm, hb => by
      obtain ⟨m₁, brk₁, heq₁, h₁, hle₁⟩ := LMap.Sized.copyChain_spec l brk hm
        (fun n hn => hb n (by simp [hn]))
      obtain ⟨m₂, brk₂, heq₂, h₂, hle₂⟩ := LMap.Sized.copyChains_spec rest brk₁ h₁.sized
        (fun n hn => hb n (List.mem_append.mpr (Or.inr hn)))
      refine ⟨m₂, brk₂, ?_, h₁.trans h₂, Nat.le_trans hle₁ hle₂⟩
      unfold LMap.copyChains
      simp only [heq₁, Option.bind_eq_bind, Option.bind_some, heq₂]
      rfl

/-- A copy that goes through read the key of every node. -/
theorem LMap.storedKey_of_copyChain :
    ∀ {l : List Node} {m : LMap} {brk : Addr} {x : LMap × List Node × Addr},
      m.copyChain brk l = some x → ∀ n ∈ l, n.storedKey ≠ none
  | [], _, _, _, _ => by simp
  | n :: rest, m, brk, x, h => by
      unfold LMap.copyChain at h
      obtain ⟨⟨m₁, n₁, brk₁⟩, h₁, h⟩ := Option.bind_eq_some_iff.mp h
      obtain ⟨⟨m₂, r₂, brk₂⟩, h₂, -⟩ := Option.bind_eq_some_iff.mp h
      have hn : n.storedKey ≠ none := by
        intro hnone
        unfold LMap.insertNode at h₁
        rw [hnone] at h₁
        exact absurd h₁ (by simp)
      intro y hy
      rcases List.mem_cons.mp hy with rfl | hy
      · exact hn
      · exact LMap.storedKey_of_copyChain h₂ y hy

theorem LMap.storedKey_of_copyChains :
    ∀ {b : List (List Node)} {m : LMap} {brk : Addr} {x : LMap × List (List Node) × Addr},
      m.copyChains brk b = some x → ∀ n ∈ b.flatten, n.storedKey ≠ none
  | [], _, _, _, _ => by simp
  | l :: rest, m, brk, x, h => by
      unfold LMap.copyChains at h
      obtain ⟨⟨m₁, l₁, brk₁⟩, h₁, h⟩ := Option.bind_eq_some_iff.mp h
      obtain ⟨⟨m₂, r₂, brk₂⟩, h₂, -⟩ := Option.bind_eq_some_iff.mp h
      intro y hy
      rcases List.mem_append.mp hy with hy | hy
      · exact LMap.storedKey_of_copyChain h₁ y hy
      · exact LMap.storedKey_of_copyChains h₂ y hy

/-! ## §3. Doubling. -/

/-- The old map after every value was shared with a copy. -/
def LMap.bump (m : LMap) : LMap := { m with data := m.data.map (List.map Node.bump) }

theorem LMap.bump_entries (m : LMap) : m.bump.entries = m.entries.map Node.bump := by
  unfold LMap.bump LMap.entries
  rw [List.map_flatten]

/-- Doubling is below the `int` limit. -/
def LMap.CanGrow (m : LMap) : Prop := m.size * 2 < 2147483648

theorem LMap.Sized.new_newSize {m : LMap} (hm : m.Sized) (hg : m.CanGrow) :
    m.newSize = m.size * 2
      ∧ LMap.new (asSize m.newSize)
          = { ref := 1, size := m.size * 2, data := List.replicate (m.size * 2).toNat [],
              index := 0 } := by
  have hpos := hm.pos
  have hlt : m.size * 2 < 2147483648 := hg
  have h1 : m.newSize = m.size * 2 := asInt_of_small (by omega) hlt
  have h2 : asSize m.newSize = (m.size * 2).toNat := by
    rw [h1]
    exact asSize_of_nonneg (by omega) (by omega)
  refine ⟨h1, ?_⟩
  unfold LMap.new
  rw [h2, asInt_of_small (by omega) (by omega)]
  congr 1
  omega

/-- The array is refused exactly when the new size overflows. -/
theorem LMap.Sized.canGrow_iff {m : LMap} (hm : m.Sized) :
    m.CanGrow ↔ asSize m.newSize < 1152921504606846976 := by
  have hpos := hm.pos
  have hlt := hm.lt
  unfold LMap.CanGrow LMap.newSize asSize asInt
  omega

/-- A map that cannot be doubled has 29 * 2^26 buckets. -/
theorem LMap.Wf.size_of_not_canGrow {m : LMap} (hm : m.Wf) (hg : ¬ m.CanGrow) : m.size = 1946157056 := by
  obtain ⟨k, hk27, hk⟩ := hm.size_eq
  have hall : ∀ k, k < 27 → ¬ ((29 : Int) * 2 ^ k * 2 < 2147483648) →
      (29 : Int) * 2 ^ k = 1946157056 := by decide
  unfold LMap.CanGrow at hg
  rw [hk] at hg ⊢
  exact hall k hk27 hg

theorem LMap.Wf.take_data {m : LMap} (hm : m.Wf) : m.data.take m.size.toNat = m.data := by
  rw [← hm.length]
  exact List.take_length

/-- A map is doubled only when the key of every node can be read. -/
theorem LMap.Wf.storedKey_of_doubled {m : LMap} (hm : m.Wf) {brk : Addr}
    {x : LMap × LMap × Addr} (h : m.doubled brk = some x) :
    ∀ n ∈ m.entries, n.storedKey ≠ none := by
  unfold LMap.doubled LMap.copyMap at h
  rw [hm.take_data] at h
  obtain ⟨y, hy, -⟩ := Option.bind_eq_some_iff.mp h
  exact LMap.storedKey_of_copyChains hy

/-- The doubled map: twice the buckets, and the nodes of the old one. -/
theorem LMap.Wf.doubled_spec {m : LMap} (hm : m.Wf) (hg : m.CanGrow)
    (hr : ∀ n ∈ m.entries, n.storedKey ≠ none) (brk : Addr) :
    ∃ nm brk', m.doubled brk = some (nm, m.bump, brk') ∧ brk ≤ brk'
      ∧ nm.Wf ∧ nm.size = m.size * 2 ∧ nm.ref = 1 ∧ nm.index = 0
      ∧ Placed Node.storedKey (bucket nm.size) nm.data
      ∧ (∀ key, (nm.find key).map Node.content
          = (lookup Node.storedKey key m.entries.reverse).map Node.content)
      ∧ ∃ cs : List Node, cs.map Node.content = m.entries.map Node.content
          ∧ nm.entries.Perm cs := by
  have hpos := hm.pos
  have hlt : m.size * 2 < 2147483648 := hg
  obtain ⟨h1, hnew⟩ := hm.toSized.new_newSize hg
  set m₀ : LMap := { ref := 1, size := m.size * 2, data := List.replicate (m.size * 2).toNat [],
                     index := 0 } with hm₀
  have hsized : m₀.Sized := ⟨by show 0 < m.size * 2; omega, hlt, by simp [hm₀]⟩
  have hempty : m₀.entries = [] := by simp [LMap.entries, hm₀]
  -- the copy takes all the chains there are
  have hdrop : m.data.drop m.size.toNat = [] := by
    rw [← hm.length]
    exact List.drop_length
  obtain ⟨nm, brk', heq, hcop, hle⟩ := LMap.Sized.copyChains_spec m.data brk hsized
    (fun n hn => ⟨hm.node n hn, hr n hn⟩)
  obtain ⟨cs, hcs, hwf, hperm⟩ := hcop.copies
  rw [hempty, List.append_nil] at hperm
  -- every node of the new map has the value of an old one
  have hvalue : ∀ c ∈ nm.entries, ∃ n ∈ m.entries, n.v = c.v := by
    intro c hc
    have hmem : c.content ∈ cs.map Node.content :=
      List.mem_map.mpr ⟨c, hperm.mem_iff.mp hc, rfl⟩
    rw [hcs] at hmem
    obtain ⟨n, hn, hnc⟩ := List.mem_map.mp hmem
    exact ⟨n, hn, congrArg Prod.snd hnc⟩
  refine ⟨nm, brk', ?_, hle, ⟨hcop.sized, ?_, ?_, ?_, ?_⟩, hcop.size, hcop.ref, hcop.index,
    hcop.placed (placed_replicate _ _ _), ?_, cs, hcs, hperm⟩
  · unfold LMap.doubled LMap.copyMap
    rw [hnew, hm.take_data, hdrop]
    simp only [heq, Option.bind_eq_bind, Option.bind_some, List.append_nil]
    rfl
  · obtain ⟨k, hk⟩ := hm.size
    exact ⟨k + 1, by rw [hcop.size]; show m.size * 2 = _; rw [hk, Int.pow_succ, Int.mul_assoc]⟩
  · exact fun c hc => hwf c (hperm.mem_iff.mp hc)
  · intro c hc
    obtain ⟨n, hn, hnc⟩ := hvalue c hc
    rw [← hnc]
    exact hm.vref n hn
  · intro c hc
    obtain ⟨n, hn, hnc⟩ := hvalue c hc
    rw [← hnc]
    exact hm.type n hn
  · intro key
    -- nothing was in the new map before the copy
    have hnone : m₀.find key = none := by
      rw [Option.eq_none_iff_forall_ne_some]
      intro n hn
      have hmem := (LMap.find_mem hn).1
      rw [hempty] at hmem
      exact absurd hmem (by simp)
    rw [hcop.find key, hnone, Option.or_none]
    rfl

theorem LMap.Inv.storedKey_ne_none {m : LMap} (hm : m.Inv) :
    ∀ n ∈ m.entries, n.storedKey ≠ none := by
  intro n hn
  obtain ⟨c, hc, hnc⟩ := List.mem_flatten.mp hn
  obtain ⟨i, hi⟩ := List.mem_iff_getElem?.mp hc
  obtain ⟨k, hk, -⟩ := hm.placed i c hi n hnc
  rw [hk]
  exact Option.some_ne_none k

/-- A node is found under the key it stores. -/
theorem LMap.Inv.find_node {m : LMap} (hm : m.Inv) {n : Node} (hn : n ∈ m.entries) :
    ∃ key, n.storedKey = some key ∧ m.find key = some n := by
  obtain ⟨key, hkey⟩ := Option.ne_none_iff_exists'.mp (hm.storedKey_ne_none n hn)
  exact ⟨key, hkey, hm.find_eq_some.mpr ⟨hn, hkey⟩⟩

theorem LMap.Inv.storedKeys_some {m : LMap} (hm : m.Inv) :
    m.entries.map Node.storedKey = (m.entries.filterMap Node.storedKey).map some := by
  rw [List.map_filterMap_some_eq_filter_map_isSome, List.filter_eq_self.mpr]
  intro o ho
  obtain ⟨n, hn, rfl⟩ := List.mem_map.mp ho
  exact Option.isSome_iff_ne_none.mpr (hm.storedKey_ne_none n hn)

theorem view_eq_lookup {m : LMap} (hm : m.Inv) (key : Key) :
    m.view key
      = (lookup Node.storedKey key m.entries).map (fun n => (n.v.type, n.v.v)) := by
  unfold LMap.view
  rw [hm.find_eq_lookup]

/-- Under the invariant doubling keeps every lookup. -/
theorem LMap.Inv.doubled_spec {m : LMap} (hm : m.Inv) (hg : m.CanGrow) (brk : Addr) :
    ∃ nm brk', m.doubled brk = some (nm, m.bump, brk') ∧ brk ≤ brk'
      ∧ nm.Inv ∧ nm.size = m.size * 2 ∧ nm.ref = 1 ∧ nm.view = m.view
      ∧ nm.entries.length = m.entries.length := by
  obtain ⟨nm, brk', heq, hle, hwf, hsize, href, -, hplaced, -, cs, hcs, hperm⟩ :=
    hm.toWf.doubled_spec hg hm.storedKey_ne_none brk
  -- the copies store the keys of the nodes, so none is stored twice
  have hkeys : cs.filterMap Node.storedKey = m.entries.filterMap Node.storedKey := by
    have hfst : ∀ l : List Node,
        l.filterMap Node.storedKey = (l.map Node.content).filterMap Prod.fst := by
      intro l
      rw [List.filterMap_map]
      rfl
    rw [hfst, hcs, ← hfst]
  have hnodup : (nm.entries.filterMap Node.storedKey).Nodup := by
    rw [(hperm.filterMap Node.storedKey).nodup_iff, hkeys]
    exact hm.nodup
  have hinv : nm.Inv := ⟨hwf, hplaced, hnodup⟩
  refine ⟨nm, brk', heq, hle, hinv, hsize, href, ?_, ?_⟩
  · funext key
    -- where a key is stored once, the order of the nodes does not matter
    rw [view_eq_lookup hinv, view_eq_lookup hm, lookup_perm Node.storedKey hperm hnodup]
    have hmap : cs.map (fun n => (n.storedKey, (n.v.type, n.v.v)))
        = m.entries.map (fun n => (n.storedKey, (n.v.type, n.v.v))) := by
      have hproj : ∀ l : List Node, l.map (fun n => (n.storedKey, (n.v.type, n.v.v)))
          = (l.map Node.content).map (fun p => (p.1, (p.2.type, p.2.v))) := by
        intro l
        rw [List.map_map]
        rfl
      rw [hproj, hcs, ← hproj]
    exact lookup_congr Node.storedKey key hmap
  · rw [hperm.length_eq, ← List.length_map (f := Node.content), hcs, List.length_map]

/-! ## §4. An insert that may grow the map. -/

/-- `m'` is `m`, or its double when the map grows. -/
def LMap.Grown (m : LMap) (grows : Prop) (m' : LMap) : Prop :=
  (¬ grows ∧ m' = m) ∨ (grows ∧ ∃ brk old brk', m.doubled brk = some (m', old, brk'))

/-- What a map can grow with: room for twice the buckets, and keys that can be
read back. -/
structure LMap.Ready (m : LMap) : Prop where
  room : m.CanGrow
  keys : ∀ n ∈ m.entries, n.storedKey ≠ none

/-- A map that grows keeps the content of its nodes. -/
theorem LMap.Wf.grown {m m' : LMap} {grows : Prop} (hm : m.Wf) (h : m.Grown grows m')
    (hr : grows → m.Ready) :
    m'.Wf ∧ (m'.entries.map Node.content).Perm (m.entries.map Node.content) := by
  rcases h with ⟨-, rfl⟩ | ⟨hg, brk, old, brk', heq⟩
  · exact ⟨hm, List.Perm.refl _⟩
  · obtain ⟨nm, brk'', heq', -, hwf, -, -, -, -, -, cs, hcs, hperm⟩ :=
      hm.doubled_spec (hr hg).room (hr hg).keys brk
    rw [heq] at heq'
    cases heq'
    exact ⟨hwf, by rw [← hcs]; exact hperm.map _⟩

/-- Under the invariant nothing that can be looked up changes. -/
theorem LMap.Inv.grown {m m' : LMap} {grows : Prop} (hm : m.Inv) (h : m.Grown grows m')
    (hr : grows → m.CanGrow) : m'.Inv ∧ m'.view = m.view := by
  rcases h with ⟨-, rfl⟩ | ⟨hg, brk, old, brk', heq⟩
  · exact ⟨hm, rfl⟩
  · obtain ⟨nm, brk'', heq', -, hinv, -, -, hview, -⟩ := hm.doubled_spec (hr hg) brk
    rw [heq] at heq'
    cases heq'
    exact ⟨hinv, hview⟩

end LightTable
