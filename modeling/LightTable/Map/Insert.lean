/-
  LightTable.Map.Insert
  ─────────────────────
  The two things an insert can do to a map, overwrite one union or link one
  node, keep the invariants and change the lookup of one key only.
-/
import LightTable.Map.Invariant

namespace LightTable

open ChainedHash

variable {m : LMap} {key : Key}

/-! ## §1. Writing one chain. -/

@[simp] theorem LMap.setChain_size (c : List Node) : (m.setChain key c).size = m.size := rfl

@[simp] theorem LMap.setChain_ref (c : List Node) : (m.setChain key c).ref = m.ref := rfl

theorem LMap.Sized.setChain (hm : m.Sized) (key : Key) (c : List Node) :
    (m.setChain key c).Sized :=
  ⟨hm.pos, hm.lt, by simp only [LMap.setChain, List.length_set]; exact hm.length⟩

theorem LMap.Sized.chain_setChain (hm : m.Sized) (key key' : Key) (c : List Node) :
    (m.setChain key c).chain key'
      = if bucket m.size key' = bucket m.size key then some c else m.chain key' := by
  have hlt := hm.bucket_lt key
  simp only [LMap.chain, LMap.setChain, List.getElem?_set]
  by_cases h : bucket m.size key' = bucket m.size key
  · simp [h, hlt]
  · rw [if_neg (fun h' => h h'.symm), if_neg h]

/-- The lookup of a key after one chain was written. -/
theorem LMap.Sized.find_setChain (hm : m.Sized) (key key' : Key) (c : List Node) :
    (m.setChain key c).find key'
      = if bucket m.size key' = bucket m.size key then lookup Node.storedKey key' c
        else m.find key' := by
  unfold LMap.find
  rw [hm.chain_setChain]
  split <;> rfl

theorem LMap.mem_setChain {c : List Node} {n : Node} (h : n ∈ (m.setChain key c).entries) :
    n ∈ m.entries ∨ n ∈ c :=
  mem_flatten_set h

theorem LMap.chain_congr {key' : Key} (h : bucket m.size key' = bucket m.size key) :
    m.chain key' = m.chain key := by
  unfold LMap.chain
  rw [h]

/-! ## §2. Overwriting. -/

theorem LMap.overwrite_eq {c : List Node} (hc : m.chain key = some c) (w : Word) :
    m.overwrite key w = m.setChain key (modifyFirst (answers key) (Node.setWord w) c) := by
  unfold LMap.overwrite
  rw [hc]
  rfl

@[simp] theorem LMap.overwrite_size (w : Word) : (m.overwrite key w).size = m.size := rfl

@[simp] theorem LMap.overwrite_ref (w : Word) : (m.overwrite key w).ref = m.ref := rfl

/-- Overwriting changes the union under one key. -/
theorem LMap.Sized.find_overwrite (hm : m.Sized) (key key' : Key) (w : Word) :
    (m.overwrite key w).find key'
      = if key' = key then (m.find key).map (Node.setWord w) else m.find key' := by
  obtain ⟨c, hc⟩ := hm.chain key
  rw [LMap.overwrite_eq hc, hm.find_setChain]
  by_cases hb : bucket m.size key' = bucket m.size key
  · have hc' : m.chain key' = some c := by rw [LMap.chain_congr hb, hc]
    rw [if_pos hb, LMap.find_eq hc, LMap.find_eq hc']
    exact lookup_modifyFirst Node.storedKey (f := Node.setWord w) (fun _ => rfl) key key' c
  · rw [if_neg hb, if_neg (fun h => hb (by rw [h]))]

/-- What the union under the key does not matter for is the same node by
node. -/
theorem LMap.Sized.map_overwrite_of {V : Type*} {g : Node → V} (hm : m.Sized) {key : Key} {w : Word}
    (hg : ∀ n ∈ m.entries, n.storedKey = some key → g (n.setWord w) = g n) :
    (m.overwrite key w).entries.map g = m.entries.map g := by
  obtain ⟨c, hc⟩ := hm.chain key
  have hchain : (modifyFirst (answers key) (Node.setWord w) c).map g = c.map g := by
    apply map_modifyFirst_of
    intro n hn hp
    exact hg n (LMap.mem_entries hc hn) (of_decide_eq_true hp)
  rw [LMap.overwrite_eq hc]
  unfold LMap.entries LMap.setChain
  rw [flatten_set _ (hm.bucket_lt key), flatten_split hc]
  simp only [List.map_append, hchain]

theorem LMap.Sized.map_overwrite {V : Type*} {g : Node → V} (hm : m.Sized) (key : Key) (w : Word)
    (hg : ∀ n : Node, g (n.setWord w) = g n) :
    (m.overwrite key w).entries.map g = m.entries.map g :=
  hm.map_overwrite_of (fun n _ _ => hg n)

theorem LMap.Sized.mem_overwrite (hm : m.Sized) {w : Word} {n : Node}
    (h : n ∈ (m.overwrite key w).entries) :
    n ∈ m.entries ∨ ∃ a, m.find key = some a ∧ n = a.setWord w := by
  obtain ⟨c, hc⟩ := hm.chain key
  rw [LMap.overwrite_eq hc] at h
  rcases LMap.mem_setChain h with h | h
  · exact Or.inl h
  · rcases mem_modifyFirst h with h | ⟨a, ha, rfl⟩
    · exact Or.inl (LMap.mem_entries hc h)
    · exact Or.inr ⟨a, (LMap.find_eq hc).trans ha, rfl⟩

theorem LMap.Wf.overwrite (hm : m.Wf) (key : Key) (w : Word) : (m.overwrite key w).Wf where
  toSized := hm.toSized.setChain key _
  size := hm.size
  node := by
    intro n hn
    rcases hm.toSized.mem_overwrite hn with h | ⟨a, ha, rfl⟩
    · exact hm.node n h
    · exact (hm.node a (LMap.find_mem ha).1).withValue _
  vref := by
    intro n hn
    rcases hm.toSized.mem_overwrite hn with h | ⟨a, ha, rfl⟩
    · exact hm.vref n h
    · exact hm.vref a (LMap.find_mem ha).1
  type := by
    intro n hn
    rcases hm.toSized.mem_overwrite hn with h | ⟨a, ha, rfl⟩
    · exact hm.type n h
    · exact hm.type a (LMap.find_mem ha).1

/-- The entries of a chain stand in its bucket. -/
theorem LMap.Inv.placed_chain (hm : m.Inv) {c : List Node} (hc : m.chain key = some c) :
    ∀ n ∈ c, ∃ k, n.storedKey = some k ∧ bucket m.size k = bucket m.size key :=
  hm.placed _ c hc

theorem LMap.Inv.overwrite (hm : m.Inv) (key : Key) (w : Word) : (m.overwrite key w).Inv where
  toWf := hm.toWf.overwrite key w
  placed := by
    obtain ⟨c, hc⟩ := hm.toSized.chain key
    rw [LMap.overwrite_eq hc]
    refine hm.placed.set _ ?_
    intro n hn
    rcases mem_modifyFirst hn with h | ⟨a, ha, rfl⟩
    · exact hm.placed_chain hc n h
    · exact hm.placed_chain hc a (List.mem_of_find?_eq_some ha)
  nodup := by
    have h := hm.toSized.map_overwrite key w (g := Node.storedKey) (fun _ => rfl)
    have heq : ∀ l : List Node, l.filterMap Node.storedKey
        = (l.map Node.storedKey).filterMap id := by
      intro l
      rw [List.filterMap_map]
      rfl
    rw [heq, h, ← heq]
    exact hm.nodup

/-! ## §3. Linking. -/

theorem LMap.link_eq {c : List Node} (hc : m.chain key = some c) (n : Node) :
    m.link key n = { m.setChain key (c ++ [n]) with index := m.index + 1 } := by
  unfold LMap.link
  rw [hc]
  rfl

@[simp] theorem LMap.link_size (n : Node) : (m.link key n).size = m.size := rfl

@[simp] theorem LMap.link_ref (n : Node) : (m.link key n).ref = m.ref := rfl

theorem LMap.Sized.find_link' (hm : m.Sized) (key key' : Key) (n : Node) :
    (m.link key n).find key'
      = if bucket m.size key' = bucket m.size key then
          (m.find key').or (if n.storedKey = some key' then some n else none)
        else m.find key' := by
  obtain ⟨c, hc⟩ := hm.chain key
  have h := hm.find_setChain key key' (c ++ [n])
  rw [LMap.link_eq hc]
  refine Eq.trans h ?_
  by_cases hb : bucket m.size key' = bucket m.size key
  · have hc' : m.chain key' = some c := by rw [LMap.chain_congr hb, hc]
    rw [if_pos hb, if_pos hb, LMap.find_eq hc', lookup_append, lookup_cons, lookup_nil]
  · rw [if_neg hb, if_neg hb]

/-- A linked node is found under its key; no other key sees it. -/
theorem LMap.Sized.find_link (hm : m.Sized) {key : Key} {n : Node} (hn : n.storedKey = some key)
    (h : m.find key = none) (key' : Key) :
    (m.link key n).find key' = if key' = key then some n else m.find key' := by
  rw [hm.find_link']
  by_cases hk : key' = key
  · subst hk
    simp [h, hn]
  · have hne : n.storedKey ≠ some key' := by
      rw [hn]
      exact fun h' => hk (Option.some.inj h').symm
    simp [hk, hne]

theorem LMap.Sized.entries_link (hm : m.Sized) (key : Key) (n : Node) :
    (m.link key n).entries.Perm (n :: m.entries) := by
  obtain ⟨c, hc⟩ := hm.chain key
  rw [LMap.link_eq hc]
  exact flatten_set_perm (s := [n]) hc List.perm_append_comm

theorem LMap.Wf.link (hm : m.Wf) (key : Key) {n : Node} (hn : n.Wf) (href : n.v.ref = 1)
    (htype : n.v.type ≠ .nil) : (m.link key n).Wf where
  toSized :=
    have h := hm.toSized.setChain key ((m.chain key).getD [] ++ [n])
    ⟨h.pos, h.lt, h.length⟩
  size := hm.size
  node := by
    intro x hx
    rcases List.mem_cons.mp ((hm.toSized.entries_link key n).mem_iff.mp hx) with rfl | h
    · exact hn
    · exact hm.node x h
  vref := by
    intro x hx
    rcases List.mem_cons.mp ((hm.toSized.entries_link key n).mem_iff.mp hx) with rfl | h
    · exact href
    · exact hm.vref x h
  type := by
    intro x hx
    rcases List.mem_cons.mp ((hm.toSized.entries_link key n).mem_iff.mp hx) with rfl | h
    · exact htype
    · exact hm.type x h

theorem LMap.Inv.link (hm : m.Inv) {n : Node} (hn : n.Wf) (href : n.v.ref = 1)
    (htype : n.v.type ≠ .nil) (hkey : n.storedKey = some key) (habs : m.find key = none) :
    (m.link key n).Inv where
  toWf := hm.toWf.link key hn href htype
  placed := by
    obtain ⟨c, hc⟩ := hm.toSized.chain key
    rw [LMap.link_eq hc]
    refine hm.placed.set _ ?_
    intro x hx
    rcases List.mem_append.mp hx with h | h
    · exact hm.placed_chain hc x h
    · rw [List.mem_singleton.mp h]
      exact ⟨key, hkey, rfl⟩
  nodup := by
    have hp := (hm.toSized.entries_link key n).filterMap Node.storedKey
    rw [hp.nodup_iff, List.filterMap_cons_some hkey, List.nodup_cons]
    refine ⟨?_, hm.nodup⟩
    intro hmem
    obtain ⟨x, hx, hxk⟩ := List.mem_filterMap.mp hmem
    rw [(hm.find_eq_some).mpr ⟨hx, hxk⟩] at habs
    exact absurd habs (by simp)

/-! ## §4. The map after an insert. -/

/-- The map after `_insert_value`. -/
def LMap.inserted (m : LMap) (brk : Addr) (key : Key) (v : Value) : LMap :=
  match m.find key with
  | some _ => m.overwrite key v.v
  | none => m.link key (freshNode brk key v)

/-- What an insert of `(type, w)` leaves under its key: a key that is there
keeps its type. -/
def written (old : Option (LType × Word)) (type : LType) (w : Word) : LType × Word :=
  match old with
  | some (type', _) => (type', w)
  | none => (type, w)

theorem LMap.inserted_found {n : Node} (h : m.find key = some n) (brk : Addr) (v : Value) :
    m.inserted brk key v = m.overwrite key v.v := by
  unfold LMap.inserted
  rw [h]

theorem LMap.inserted_absent (h : m.find key = none) (brk : Addr) (v : Value) :
    m.inserted brk key v = m.link key (freshNode brk key v) := by
  unfold LMap.inserted
  rw [h]

@[simp] theorem LMap.inserted_size (brk : Addr) (v : Value) :
    (m.inserted brk key v).size = m.size := by
  unfold LMap.inserted
  split <;> rfl

@[simp] theorem LMap.inserted_ref (brk : Addr) (v : Value) :
    (m.inserted brk key v).ref = m.ref := by
  unfold LMap.inserted
  split <;> rfl

/-- A node of the map after an insert is an old one, the one of the key with
its union overwritten, or the fresh one. -/
theorem LMap.Sized.mem_inserted (hm : m.Sized) {brk : Addr} {v : Value} {n : Node}
    (hn : n ∈ (m.inserted brk key v).entries) :
    n ∈ m.entries ∨ (∃ a, m.find key = some a ∧ n = a.setWord v.v)
      ∨ (m.find key = none ∧ n = freshNode brk key v) := by
  cases h : m.find key with
  | some a =>
    rw [LMap.inserted_found h] at hn
    rcases hm.mem_overwrite hn with hn | ⟨b, hb, rfl⟩
    · exact Or.inl hn
    · exact Or.inr (Or.inl ⟨b, h.symm.trans hb, rfl⟩)
  | none =>
    rw [LMap.inserted_absent h] at hn
    rcases List.mem_cons.mp ((hm.entries_link key _).mem_iff.mp hn) with hn | hn
    · exact Or.inr (Or.inr ⟨rfl, hn⟩)
    · exact Or.inl hn

/-- `_insert_value` gives the type the key had and the inserted map. -/
theorem LMap.Wf.insertValue_eq (hm : m.Wf) (key : Key) (brk : Addr) (v : Value) :
    ∃ brk', brk ≤ brk' ∧ m.insertValue brk key v 0
      = some { type := m.typeAt key, depth := m.depth key, map := m.inserted brk key v,
               brk := brk' } := by
  unfold LMap.typeAt LMap.view
  cases h : m.find key with
  | some n =>
    refine ⟨brk, Nat.le_refl _, ?_⟩
    rw [hm.insertValue_found h, LMap.inserted_found h, Nat.zero_add]
    rfl
  | none =>
    refine ⟨(newNode brk key v.type).2, by cases key <;> simp [newNode], ?_⟩
    rw [hm.insertValue_absent h, LMap.inserted_absent h, Nat.zero_add]
    rfl

theorem LMap.Wf.inserted (hm : m.Wf) (key : Key) (brk : Addr) {v : Value} (hv : v.type ≠ .nil) :
    (m.inserted brk key v).Wf := by
  unfold LMap.inserted
  split
  · exact hm.overwrite key v.v
  · exact hm.link key (freshNode_wf brk key v) rfl hv

theorem LMap.Inv.inserted (hm : m.Inv) (hk : key.Fits) (brk : Addr) {v : Value}
    (hv : v.type ≠ .nil) : (m.inserted brk key v).Inv := by
  cases h : m.find key with
  | some n =>
    rw [LMap.inserted_found h]
    exact hm.overwrite key v.v
  | none =>
    rw [LMap.inserted_absent h]
    exact hm.link (freshNode_wf brk key v) rfl hv (storedKey_freshNode hk brk v) h

/-- The view changes under the inserted key only. -/
theorem LMap.Sized.view_inserted (hm : m.Sized) (hk : key.Fits) (brk : Addr) (v : Value) :
    (m.inserted brk key v).view
      = Function.update m.view key (some (written (m.view key) v.type v.v)) := by
  funext key'
  cases h : m.find key with
  | some n =>
    rw [LMap.inserted_found h]
    simp only [LMap.view, hm.find_overwrite, Function.update_apply, h]
    by_cases hkk : key' = key
    · simp [hkk, written]
    · simp [hkk]
  | none =>
    rw [LMap.inserted_absent h]
    simp only [LMap.view, hm.find_link (storedKey_freshNode hk brk v) h, Function.update_apply, h]
    by_cases hkk : key' = key
    · simp [hkk, written]
    · simp [hkk]

end LightTable
