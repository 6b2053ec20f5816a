/-
  LightTable.Map.Invariant
  ────────────────────────
  What holds of every map, and what search and insert do to it.

  Two levels.  `LMap.Wf` holds of every map a table can own, whatever keys
  were used.  `LMap.Inv` adds the representation invariant of a hash table:
  every node stands in the bucket of its key and no two nodes have one key.
  It needs keys whose length or index fits an `int`.

  A node answers to exactly one key, the key `_insert_node` would read back
  out of it (`isInHash_iff`), so every chain walk is a `ChainedHash.lookup`.
-/
import LightTable.Map.Def
import LightTable.Lib.ChainedHash
import Mathlib.Algebra.Ring.Int.Defs

namespace LightTable

open ChainedHash

/-! ## §1. Nodes. -/

/-- What `_new_node` guarantees: the kind says whether there is a key string,
and the stored numbers are `int`s. -/
structure Node.Wf (n : Node) : Prop where
  kind : n.keyType = if n.strkey.isSome then .string else .number
  numkey : asInt n.numkey = n.numkey
  sz : ∀ a s, n.strkey = some (a, s) → asInt s.sz = s.sz

/-- Write the union of a node's value. -/
def Node.setWord (w : Word) (n : Node) : Node := { n with v := { n.v with v := w } }

@[simp] theorem Node.storedKey_setWord (w : Word) (n : Node) :
    (n.setWord w).storedKey = n.storedKey := rfl

@[simp] theorem Node.setWord_type (w : Word) (n : Node) : (n.setWord w).v.type = n.v.type := rfl

@[simp] theorem Node.setWord_word (w : Word) (n : Node) : (n.setWord w).v.v = w := rfl

theorem Node.Wf.withValue {n : Node} (hn : n.Wf) (v : Value) : { n with v := v }.Wf :=
  ⟨hn.kind, hn.numkey, hn.sz⟩

theorem asInt_asInt (x : Int) : asInt (asInt x) = asInt x := by
  unfold asInt; omega

theorem newNode_wf (brk : Addr) (key : Key) (type : LType) : (newNode brk key type).1.Wf := by
  cases key with
  | str name =>
    refine ⟨rfl, rfl, ?_⟩
    intro a s h
    simp only [newNode, Option.some.injEq, Prod.mk.injEq] at h
    rw [← h.2]
    exact asInt_asInt _
  | num idx => exact ⟨rfl, asInt_asInt _, fun a s h => by simp [newNode] at h⟩

theorem freshNode_wf (brk : Addr) (key : Key) (v : Value) : (freshNode brk key v).Wf :=
  (newNode_wf brk key v.type).withValue _

theorem asSize_lt (x : Int) : asSize x < 18446744073709551616 := by
  unfold asSize; omega

theorem ofNat_asSize_eq {x : Int} {idx : UInt64} :
    UInt64.ofNat (asSize x) = idx ↔ asSize x = idx.toNat := by
  have hlt := asSize_lt x
  rw [← UInt64.toNat_inj, UInt64.toNat_ofNat', Nat.mod_eq_of_lt hlt]

/-- A node answers to the key it stores, and to no other. -/
theorem isInHash_iff {n : Node} (hn : n.Wf) (key : Key) :
    isInHash key n = decide (n.storedKey = some key) := by
  have hkind := hn.kind
  rw [Bool.eq_iff_iff, decide_eq_true_iff]
  cases hs : n.strkey with
  | none =>
    rw [hs] at hkind
    simp only [Option.isSome_none, Bool.false_eq_true, if_false] at hkind
    cases key with
    | str name => simp [isInHash, Node.storedKey, hkind, hs]
    | num idx =>
      simp only [isInHash, Node.storedKey, hkind, hs, BEq.rfl, Bool.true_and, beq_iff_eq,
        Option.some.injEq, Key.num.injEq]
      exact ofNat_asSize_eq.symm
  | some p =>
    obtain ⟨a, s⟩ := p
    rw [hs] at hkind
    simp only [Option.isSome_some, if_true] at hkind
    cases key with
    | num idx => simp [isInHash, Node.storedKey, hkind, hs]
    | str name =>
      simp only [isInHash, Node.storedKey, hkind, hs, BEq.rfl, Bool.true_and, cmpString,
        Bool.and_eq_true, beq_iff_eq, Option.map_eq_some_iff, Key.str.injEq, exists_eq_right]
      unfold readBytes
      constructor
      · rintro ⟨hsz, htake⟩
        -- the comparison read as many bytes as the name has
        have hle : name.length ≤ s.buf.length := by
          have := congrArg List.length htake
          rw [List.length_take] at this
          omega
        rw [if_pos (by omega), hsz, htake]
      · intro h
        split at h
        next hle =>
          simp only [Option.some.injEq] at h
          have hlen : name.length = asSize s.sz := by
            rw [← h, List.length_take]
            omega
          exact ⟨hlen.symm, by rw [hlen]; exact h⟩
        next => exact absurd h (by simp)

theorem asInt_asSize {x : Int} (h : asInt x = x) : asInt (asSize x) = x := by
  have := asInt_bounds x
  unfold asSize asInt at *
  omega

/-- Only keys that fit can be read back. -/
theorem Node.Wf.storedKey_fits {n : Node} (hn : n.Wf) {key : Key}
    (h : n.storedKey = some key) : key.Fits := by
  unfold Node.storedKey at h
  cases hs : n.strkey with
  | none =>
    rw [hs] at h
    simp only [Option.some.injEq] at h
    subst h
    show asSize (asInt (UInt64.ofNat (asSize n.numkey)).toNat) = _
    simp only [Key.szIdx]
    rw [UInt64.toNat_ofNat', Nat.mod_eq_of_lt (asSize_lt _), asInt_asSize hn.numkey]
  | some p =>
    obtain ⟨a, s⟩ := p
    rw [hs] at h
    simp only [Option.map_eq_some_iff] at h
    obtain ⟨name, hread, rfl⟩ := h
    unfold readBytes at hread
    split at hread
    next hle =>
      simp only [Option.some.injEq] at hread
      have hlen : name.length = asSize s.sz := by
        rw [← hread, List.length_take]
        omega
      show asSize (asInt name.length) = name.length
      rw [hlen, asInt_asSize (hn.sz a s hs)]
    next => exact absurd hread (by simp)

/-- A new node stores the key it was built for, when the key fits. -/
theorem storedKey_newNode {key : Key} (hk : key.Fits) (brk : Addr) (type : LType) :
    (newNode brk key type).1.storedKey = some key := by
  cases key with
  | str name =>
    have hlen : asSize (asInt name.length) = name.length := hk
    simp [newNode, Node.storedKey, newString, readBytes, hlen]
  | num idx =>
    have hidx : asSize (asInt idx.toNat) = idx.toNat := hk
    simp [newNode, Node.storedKey, hidx]

@[simp] theorem storedKey_freshNode {key : Key} (hk : key.Fits) (brk : Addr) (v : Value) :
    (freshNode brk key v).storedKey = some key :=
  storedKey_newNode hk brk v.type

@[simp] theorem freshNode_v (brk : Addr) (key : Key) (v : Value) :
    (freshNode brk key v).v = { v with ref := 1 } := rfl

/-! ## §2. Well-formed maps. -/

/-- The bucket count is a positive `int` and the length of the array. -/
structure LMap.Sized (m : LMap) : Prop where
  pos : 0 < m.size
  lt : m.size < 2147483648
  length : m.data.length = m.size.toNat

/-- What holds of every map a table owns, between calls. -/
structure LMap.Wf (m : LMap) : Prop extends m.Sized where
  size : ∃ k : Nat, m.size = 29 * 2 ^ k
  node : ∀ n ∈ m.entries, n.Wf
  vref : ∀ n ∈ m.entries, n.v.ref = 1
  type : ∀ n ∈ m.entries, n.v.type ≠ .nil

/-- The representation invariant. -/
structure LMap.Inv (m : LMap) : Prop extends m.Wf where
  placed : Placed Node.storedKey (bucket m.size) m.data
  nodup : (m.entries.filterMap Node.storedKey).Nodup

/-- An `int` leaves room for 26 doublings of 29 buckets. -/
theorem LMap.Wf.size_eq {m : LMap} (hm : m.Wf) : ∃ k, k < 27 ∧ m.size = 29 * 2 ^ k := by
  obtain ⟨k, hk⟩ := hm.size
  refine ⟨k, ?_, hk⟩
  have hlt := hm.lt
  rcases Nat.lt_or_ge k 27 with h | h
  · exact h
  · obtain ⟨j, rfl⟩ := Nat.exists_eq_add_of_le h
    have h27 : (2 : Int) ^ 27 = 134217728 := by decide
    have hj : 0 < (2 : Int) ^ j := Int.pow_pos (by decide)
    rw [pow_add, h27] at hk
    omega

/-- Every index is inside the array. -/
theorem LMap.Sized.bucket_lt {m : LMap} (hm : m.Sized) (key : Key) :
    bucket m.size key < m.data.length := by
  rw [hm.length]
  exact hash_lt key hm.pos hm.lt

theorem LMap.Sized.chain {m : LMap} (hm : m.Sized) (key : Key) : ∃ c, m.chain key = some c :=
  ⟨_, List.getElem?_eq_getElem (hm.bucket_lt key)⟩

theorem LMap.mem_entries {m : LMap} {key : Key} {c : List Node} (hc : m.chain key = some c)
    {n : Node} (hn : n ∈ c) : n ∈ m.entries :=
  List.mem_flatten.mpr ⟨c, List.mem_of_getElem? hc, hn⟩

theorem LMap.new_entries (n : Nat) : (LMap.new n).entries = [] := by
  simp [LMap.new, LMap.entries]

/-- The node that answers to a key. -/
def LMap.find (m : LMap) (key : Key) : Option Node :=
  (m.chain key).bind (lookup Node.storedKey key)

theorem LMap.find_eq {m : LMap} {key : Key} {c : List Node} (hc : m.chain key = some c) :
    m.find key = lookup Node.storedKey key c := by
  unfold LMap.find
  rw [hc]
  rfl

theorem LMap.find_mem {m : LMap} {key : Key} {n : Node} (h : m.find key = some n) :
    n ∈ m.entries ∧ n.storedKey = some key := by
  unfold LMap.find at h
  obtain ⟨c, hc, hn⟩ := Option.bind_eq_some_iff.mp h
  obtain ⟨hmem, hkey⟩ := lookup_mem _ hn
  exact ⟨LMap.mem_entries hc hmem, hkey⟩

/-- A key that does not fit is never found. -/
theorem LMap.Wf.find_of_not_fits {m : LMap} (hm : m.Wf) {key : Key} (hk : ¬ key.Fits) :
    m.find key = none := by
  cases h : m.find key with
  | none => rfl
  | some n =>
    obtain ⟨hmem, hkey⟩ := LMap.find_mem h
    exact absurd ((hm.node n hmem).storedKey_fits hkey) hk

/-- Under the invariant a key is found iff some node stores it. -/
theorem LMap.Inv.find_eq_some {m : LMap} (hm : m.Inv) {key : Key} {n : Node} :
    m.find key = some n ↔ n ∈ m.entries ∧ n.storedKey = some key := by
  obtain ⟨c, hc⟩ := hm.toSized.chain key
  rw [LMap.find_eq hc, lookup_bucket Node.storedKey hm.placed hc]
  exact lookup_eq_some Node.storedKey hm.nodup

theorem LMap.Inv.find_eq_lookup {m : LMap} (hm : m.Inv) (key : Key) :
    m.find key = lookup Node.storedKey key m.entries := by
  obtain ⟨c, hc⟩ := hm.toSized.chain key
  rw [LMap.find_eq hc, lookup_bucket Node.storedKey hm.placed hc]
  rfl

/-- The type and the union stored under a key. -/
def LMap.view (m : LMap) (key : Key) : Option (LType × Word) :=
  (m.find key).map (fun n => (n.v.type, n.v.v))

/-- The type found by a search. -/
def LMap.typeAt (m : LMap) (key : Key) : LType := ((m.view key).map Prod.fst).getD .nil

theorem LMap.typeAt_found {m : LMap} {key : Key} {n : Node} (h : m.find key = some n) :
    m.typeAt key = n.v.type := by
  unfold LMap.typeAt LMap.view
  rw [h]
  rfl

theorem LMap.typeAt_absent {m : LMap} {key : Key} (h : m.find key = none) : m.typeAt key = .nil := by
  unfold LMap.typeAt LMap.view
  rw [h]
  rfl

/-! ## §3. Search. -/

/-- What a search leaves in its result: the value found, or `LT_NIL` over what
was there before. -/
def LMap.result (m : LMap) (key : Key) (tmp : Value) : Value :=
  match m.find key with
  | some n => n.v
  | none => { tmp with type := .nil }

theorem LMap.result_found {m : LMap} {key : Key} {n : Node} (h : m.find key = some n)
    (tmp : Value) : m.result key tmp = n.v := by
  unfold LMap.result
  rw [h]

theorem LMap.result_absent {m : LMap} {key : Key} (h : m.find key = none) (tmp : Value) :
    m.result key tmp = { tmp with type := .nil } := by
  unfold LMap.result
  rw [h]

theorem searchLoop_eq {l : List Node} (hl : ∀ n ∈ l, n.Wf) (key : Key) (result : Value) :
    searchLoop key result l
      = match lookup Node.storedKey key l with
        | some n => n.v
        | none => { result with type := .nil } := by
  induction l with
  | nil => rfl
  | cons n l ih =>
    have ih := ih (fun x hx => hl x (by simp [hx]))
    rw [lookup_cons, searchLoop, isInHash_iff (hl n (by simp)), ih]
    by_cases h : n.storedKey = some key <;> simp [h]

/-- `_search` finds the node that answers to the key. -/
theorem LMap.Wf.search_eq {m : LMap} (hm : m.Wf) (key : Key) (result : Value) :
    m.search key result = some (m.result key result) := by
  obtain ⟨c, hc⟩ := hm.toSized.chain key
  unfold LMap.search LMap.result
  rw [hc, LMap.find_eq hc]
  simp only [Option.bind_eq_bind, Option.bind_some, Option.pure_def, Option.some.injEq]
  exact searchLoop_eq (fun n hn => hm.node n (LMap.mem_entries hc hn)) key result

/-! ## §4. Insert. -/

/-- Whether a node answers to `key`. -/
def answers (key : Key) (n : Node) : Bool := decide (n.storedKey = some key)

/-- How many nodes `_insert_value` walks past. -/
def LMap.depth (m : LMap) (key : Key) : Nat :=
  ((m.chain key).getD []).findIdx (answers key)

/-- The map with the union of the node of `key` replaced. -/
def LMap.overwrite (m : LMap) (key : Key) (w : Word) : LMap :=
  m.setChain key (modifyFirst (answers key) (Node.setWord w) ((m.chain key).getD []))

/-- The map with `n` linked at the tail of the chain of `key`. -/
def LMap.link (m : LMap) (key : Key) (n : Node) : LMap :=
  { m.setChain key ((m.chain key).getD [] ++ [n]) with index := m.index + 1 }

theorem insertLoop_eq {l : List Node} (hl : ∀ n ∈ l, n.Wf) (key : Key) (w : Word) (fresh : Node)
    (d : Nat) :
    insertLoop key w fresh l d
      = match lookup Node.storedKey key l with
        | some n => (some n.v.type, d + l.findIdx (answers key),
            modifyFirst (answers key) (Node.setWord w) l)
        | none => (none, d + l.findIdx (answers key), l ++ [fresh]) := by
  induction l generalizing d with
  | nil => rfl
  | cons n l ih =>
    have ih := ih (fun x hx => hl x (by simp [hx])) (d + 1)
    rw [lookup_cons, insertLoop, isInHash_iff (hl n (by simp)), ih]
    by_cases h : n.storedKey = some key
    · simp [h, answers, modifyFirst, List.findIdx_cons, Node.setWord]
    · have hidx : (n :: l).findIdx (answers key) = l.findIdx (answers key) + 1 := by
        simp [List.findIdx_cons, answers, h]
      rw [hidx]
      simp only [h, decide_false, Bool.false_eq_true, if_false]
      cases lookup Node.storedKey key l with
      | none => simp; omega
      | some x => simp [modifyFirst, answers, h]; omega

/-- `_insert_value` on a key that is there: its union is overwritten, whatever
the type, and the type that was there comes back. -/
theorem LMap.Wf.insertValue_found {m : LMap} (hm : m.Wf) {key : Key} {n : Node}
    (h : m.find key = some n) (brk : Addr) (v : Value) (d : Nat) :
    m.insertValue brk key v d
      = some { type := n.v.type, depth := d + m.depth key, map := m.overwrite key v.v,
               brk := brk } := by
  obtain ⟨c, hc⟩ := hm.toSized.chain key
  rw [LMap.find_eq hc] at h
  unfold LMap.insertValue LMap.depth LMap.overwrite
  rw [hc]
  simp only [Option.bind_eq_bind, Option.bind_some, Option.getD_some]
  rw [insertLoop_eq (fun x hx => hm.node x (LMap.mem_entries hc hx)), h]
  rfl

/-- `_insert_value` on an absent key: a new node is linked at the tail. -/
theorem LMap.Wf.insertValue_absent {m : LMap} (hm : m.Wf) {key : Key}
    (h : m.find key = none) (brk : Addr) (v : Value) (d : Nat) :
    m.insertValue brk key v d
      = some { type := .nil, depth := d + m.depth key,
               map := m.link key (freshNode brk key v), brk := (newNode brk key v.type).2 } := by
  obtain ⟨c, hc⟩ := hm.toSized.chain key
  rw [LMap.find_eq hc] at h
  unfold LMap.insertValue LMap.depth LMap.link
  rw [hc]
  simp only [Option.bind_eq_bind, Option.bind_some, Option.getD_some]
  rw [insertLoop_eq (fun x hx => hm.node x (LMap.mem_entries hc hx)), h]
  rfl

end LightTable
