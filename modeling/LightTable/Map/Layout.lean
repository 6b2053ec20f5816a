/-
  LightTable.Map.Layout
  ─────────────────────
  Where the nodes of a map stand and what memory they take.

  `_copy_map` walks the nodes in the order of the buckets and links each copy
  at the head of its chain, so a chain of the doubled map is the walk,
  restricted to the keys that hash there, in reverse (`LMap.Wf.doubled_chains`).
  Each copy takes the next free addresses, so the new nodes and key strings
  are exactly the addresses handed out (`LMap.Wf.doubled_blocks`).
-/
import LightTable.Map.Copy

namespace LightTable

open ChainedHash

/-! ## §1. The blocks of a map. -/

/-- The blocks of memory a node takes: itself and its key string. -/
def Node.blocks (n : Node) : List Addr := n.addr :: (n.strkey.map Prod.fst).toList

/-- The blocks of all nodes of a map. -/
def LMap.blocks (m : LMap) : List Addr := m.entries.flatMap Node.blocks

/-- Whether `a` was handed out when the free address went from `b` to `b'`. -/
def handedOut (b b' a : Nat) : Nat := if b ≤ a ∧ a < b' then 1 else 0

theorem handedOut_self (b a : Nat) : handedOut b b a = 0 := by
  unfold handedOut
  rw [if_neg (by omega)]

theorem handedOut_add {b b' b'' : Nat} (h : b ≤ b') (h' : b' ≤ b'') (a : Nat) :
    handedOut b b'' a = handedOut b b' a + handedOut b' b'' a := by
  unfold handedOut
  split <;> split <;> split <;> omega

theorem handedOut_one (b a : Nat) : [b].count a = handedOut b (b + 1) a := by
  unfold handedOut
  rw [List.count_singleton]
  simp only [beq_iff_eq]
  split <;> split <;> omega

theorem handedOut_two (b a : Nat) : [b, b + 1].count a = handedOut b (b + 2) a := by
  show ([b] ++ [b + 1]).count a = _
  rw [handedOut_add (Nat.le_succ b) (Nat.le_succ (b + 1)), List.count_append, handedOut_one,
    handedOut_one]

@[simp] theorem Node.blocks_withValue (n : Node) (v : Value) :
    ({ n with v := v } : Node).blocks = n.blocks := rfl

theorem newNode_le (brk : Addr) (key : Key) (type : LType) : brk ≤ (newNode brk key type).2 := by
  cases key with
  | str name => exact Nat.le_add_right brk 2
  | num idx => exact Nat.le_add_right brk 1

/-- A new node takes exactly the addresses handed out for it. -/
theorem count_blocks_newNode (brk : Addr) (key : Key) (type : LType) (a : Addr) :
    (newNode brk key type).1.blocks.count a = handedOut brk (newNode brk key type).2 a := by
  cases key with
  | str name => exact handedOut_two brk a
  | num idx => exact handedOut_one brk a

theorem count_flatMap_perm {l l' : List Node} (h : l.Perm l') (a : Addr) :
    (l.flatMap Node.blocks).count a = (l'.flatMap Node.blocks).count a :=
  (h.flatMap_right Node.blocks).count_eq a

/-- Overwriting a union moves no node. -/
theorem LMap.Sized.blocks_overwrite {m : LMap} (hm : m.Sized) (key : Key) (w : Word) :
    (m.overwrite key w).blocks = m.blocks := by
  have h := hm.map_overwrite key w (g := Node.blocks) (fun _ => rfl)
  unfold LMap.blocks
  rw [List.flatMap_def, List.flatMap_def, h]

/-- An insert takes the blocks of the node it links. -/
theorem LMap.Wf.insertValue_blocks {m : LMap} (hm : m.Wf) {key : Key} {brk : Addr} {v : Value}
    {r : Inserted} (hr : m.insertValue brk key v 0 = some r) (a : Addr) :
    brk ≤ r.brk ∧ r.map.blocks.count a = m.blocks.count a + handedOut brk r.brk a := by
  cases h : m.find key with
  | some n =>
    rw [hm.insertValue_found h] at hr
    cases hr
    refine ⟨Nat.le_refl brk, ?_⟩
    show (m.overwrite key v.v).blocks.count a = _ + handedOut brk brk a
    rw [hm.toSized.blocks_overwrite, handedOut_self, Nat.add_zero]
  | none =>
    rw [hm.insertValue_absent h] at hr
    cases hr
    refine ⟨newNode_le brk key v.type, ?_⟩
    have hperm := count_flatMap_perm (hm.toSized.entries_link key (freshNode brk key v)) a
    rw [List.flatMap_cons, List.count_append] at hperm
    have hnew := count_blocks_newNode brk key v.type a
    show (m.link key (freshNode brk key v)).blocks.count a = m.blocks.count a + _
    unfold LMap.blocks
    rw [hperm]
    show (newNode brk key v.type).1.blocks.count a + _ = _ + handedOut _ (newNode brk key v.type).2 a
    omega

/-! ## §2. Copying. -/

/-- The chain at an index; no chain is an empty one. -/
def LMap.chainAt (m : LMap) (i : Nat) : List Node := (m.data[i]?).getD []

/-- Whether the key a node stores hashes to the index `i` of `size` buckets. -/
def Node.lands (size : Int) (i : Nat) (n : Node) : Bool :=
  decide (n.storedKey.map (bucket size) = some i)

theorem LMap.Sized.chainAt_push {m : LMap} (hm : m.Sized) {n : Node} {key : Key} (i : Nat) :
    (m.push key n).chainAt i = if bucket m.size key = i then n :: m.chainAt i else m.chainAt i := by
  have hlt := hm.bucket_lt key
  unfold LMap.chainAt LMap.push LMap.setChain LMap.chain
  rw [List.getElem?_set]
  by_cases h : bucket m.size key = i
  · subst h
    simp [hlt]
  · rw [if_neg h, if_neg h]

/-- What copying the nodes `l` into `m` gives, chain by chain and block by
block. -/
structure LaidOut (l : List Node) (m : LMap) (brk : Addr) (m' : LMap) (brk' : Addr) : Prop where
  le : brk ≤ brk'
  blocks : ∀ a, m'.blocks.count a = m.blocks.count a + handedOut brk brk' a
  chains : ∀ i, (m'.chainAt i).map Node.content
    = ((l.filter (Node.lands m.size i)).map Node.content).reverse
      ++ (m.chainAt i).map Node.content

theorem LaidOut.nil (m : LMap) (brk : Addr) : LaidOut [] m brk m brk where
  le := Nat.le_refl brk
  blocks := fun a => by rw [handedOut_self, Nat.add_zero]
  chains := fun _ => rfl

theorem LaidOut.trans {l₁ l₂ : List Node} {m m' m'' : LMap} {b b' b'' : Addr}
    (h₁ : LaidOut l₁ m b m' b') (h₂ : LaidOut l₂ m' b' m'' b'') (hs : m'.size = m.size) :
    LaidOut (l₁ ++ l₂) m b m'' b'' where
  le := Nat.le_trans h₁.le h₂.le
  blocks := by
    intro a
    rw [h₂.blocks a, h₁.blocks a, handedOut_add h₁.le h₂.le a, Nat.add_assoc]
  chains := by
    intro i
    rw [h₂.chains i, h₁.chains i, hs, List.filter_append, List.map_append, List.reverse_append,
      List.append_assoc]

/-- One node. -/
theorem LMap.Sized.laidOut_push {m : LMap} (hm : m.Sized) {n : Node} (hn : n.Wf) {key : Key}
    (hk : n.storedKey = some key) (brk : Addr) :
    LaidOut [n] m brk (m.push key (n.copyAt brk key)) (newNode brk key n.v.type).2 where
  le := newNode_le brk key n.v.type
  blocks := by
    intro a
    obtain ⟨l, hl⟩ := hm.chain key
    have hperm : (m.push key (n.copyAt brk key)).entries.Perm (n.copyAt brk key :: m.entries) := by
      unfold LMap.push
      rw [hl]
      exact flatten_set_perm (s := [n.copyAt brk key]) hl (List.Perm.refl _)
    have hcount := count_flatMap_perm hperm a
    rw [List.flatMap_cons, List.count_append] at hcount
    have hnew := count_blocks_newNode brk key n.v.type a
    unfold LMap.blocks
    rw [hcount]
    show (newNode brk key n.v.type).1.blocks.count a + _ = _
    omega
  chains := by
    intro i
    rw [hm.chainAt_push]
    have hcontent := hn.content_copyAt hk brk
    by_cases h : bucket m.size key = i
    · simp [Node.lands, hk, h, hcontent]
    · simp [Node.lands, hk, h]

theorem LMap.Sized.copyChain_laidOut :
    ∀ (l : List Node) {m m' : LMap} {brk brk' : Addr} {l' : List Node}, m.Sized → Readable l →
      m.copyChain brk l = some (m', l', brk') → LaidOut l m brk m' brk' ∧ m'.Sized
        ∧ m'.size = m.size
  | [], m, m', brk, brk', l', hm, _, h => by
      cases h
      exact ⟨.nil m brk, hm, rfl⟩
  | n :: rest, m, m', brk, brk', l', hm, hl, h => by
      obtain ⟨hn, hsome⟩ := hl n (by simp)
      obtain ⟨key, hk⟩ := Option.ne_none_iff_exists'.mp hsome
      have hpush := hm.copiedInto_push hn hk brk
      unfold LMap.copyChain at h
      rw [hm.insertNode_eq hk] at h
      simp only [Option.bind_eq_bind, Option.bind_some] at h
      obtain ⟨⟨m₂, r₂, brk₂⟩, h₂, h⟩ := Option.bind_eq_some_iff.mp h
      cases h
      obtain ⟨hrest, hsized, hsize⟩ := LMap.Sized.copyChain_laidOut rest hpush.sized
        (fun x hx => hl x (by simp [hx])) h₂
      exact ⟨(hm.laidOut_push hn hk brk).trans hrest hpush.size, hsized, hsize.trans hpush.size⟩

theorem LMap.Sized.copyChains_laidOut :
    ∀ (b : List (List Node)) {m m' : LMap} {brk brk' : Addr} {b' : List (List Node)}, m.Sized →
      Readable b.flatten → m.copyChains brk b = some (m', b', brk') →
      LaidOut b.flatten m brk m' brk' ∧ m'.size = m.size
  | [], m, m', brk, brk', b', _, _, h => by
      cases h
      exact ⟨.nil m brk, rfl⟩
  | l :: rest, m, m', brk, brk', b', hm, hb, h => by
      unfold LMap.copyChains at h
      obtain ⟨⟨m₁, l₁, brk₁⟩, h₁, h⟩ := Option.bind_eq_some_iff.mp h
      obtain ⟨⟨m₂, r₂, brk₂⟩, h₂, h⟩ := Option.bind_eq_some_iff.mp h
      cases h
      obtain ⟨hlaid₁, hsized, hsize₁⟩ := LMap.Sized.copyChain_laidOut l hm
        (fun n hn => hb n (by simp [hn])) h₁
      obtain ⟨hlaid₂, hsize₂⟩ := LMap.Sized.copyChains_laidOut rest hsized
        (fun n hn => hb n (List.mem_append.mpr (Or.inr hn))) h₂
      exact ⟨hlaid₁.trans hlaid₂ hsize₁, hsize₂.trans hsize₁⟩

/-- Doubling lays the nodes out in an empty map of twice the size. -/
theorem LMap.Wf.doubled_laidOut {m nm old : LMap} {brk brk' : Addr} (hm : m.Wf) (hr : m.Ready)
    (h : m.doubled brk = some (nm, old, brk')) :
    ∃ m₀ : LMap, m₀.size = m.size * 2 ∧ (∀ i, m₀.chainAt i = []) ∧ m₀.blocks = []
      ∧ LaidOut m.entries m₀ brk nm brk' := by
  have hpos := hm.pos
  have hlt : m.size * 2 < 2147483648 := hr.room
  obtain ⟨-, hnew⟩ := hm.toSized.new_newSize hr.room
  set m₀ : LMap := { ref := 1, size := m.size * 2, data := List.replicate (m.size * 2).toNat [],
                     index := 0 } with hm₀
  have hsized : m₀.Sized := ⟨by show 0 < m.size * 2; omega, hlt, by simp [hm₀]⟩
  unfold LMap.doubled LMap.copyMap at h
  rw [hnew, hm.take_data] at h
  obtain ⟨⟨m₁, b₁, brk₁⟩, h₁, h⟩ := Option.bind_eq_some_iff.mp h
  cases h
  obtain ⟨hlaid, -⟩ := LMap.Sized.copyChains_laidOut m.data hsized
    (fun n hn => ⟨hm.node n hn, hr.keys n hn⟩) h₁
  refine ⟨m₀, rfl, ?_, ?_, hlaid⟩
  · intro i
    unfold LMap.chainAt
    cases hi : m₀.data[i]? with
    | none => rfl
    | some l => exact List.eq_of_mem_replicate (List.mem_of_getElem? hi)
  · simp [LMap.blocks, LMap.entries, hm₀]

/-- A chain of the doubled map: the nodes whose keys hash there, last first. -/
theorem LMap.Wf.doubled_chains {m nm old : LMap} {brk brk' : Addr} (hm : m.Wf) (hr : m.Ready)
    (h : m.doubled brk = some (nm, old, brk')) (i : Nat) :
    (nm.chainAt i).map Node.content
      = ((m.entries.filter (Node.lands (m.size * 2) i)).map Node.content).reverse := by
  obtain ⟨m₀, hsize, hchain, -, hlaid⟩ := hm.doubled_laidOut hr h
  rw [hlaid.chains i, hchain i, hsize, List.map_nil, List.append_nil]

/-- How many nodes a chain of the doubled map has. -/
theorem LMap.Wf.doubled_length {m nm old : LMap} {brk brk' : Addr} (hm : m.Wf) (hr : m.Ready)
    (h : m.doubled brk = some (nm, old, brk')) (i : Nat) :
    (nm.chainAt i).length = m.entries.countP (Node.lands (m.size * 2) i) := by
  have hlen := congrArg List.length (hm.doubled_chains hr h i)
  rw [List.length_reverse, List.length_map, List.length_map] at hlen
  rw [hlen, List.countP_eq_length_filter]

/-- The blocks of the doubled map: the addresses handed out for it. -/
theorem LMap.Wf.doubled_blocks {m nm old : LMap} {brk brk' : Addr} (hm : m.Wf) (hr : m.Ready)
    (h : m.doubled brk = some (nm, old, brk')) (a : Addr) :
    brk ≤ brk' ∧ nm.blocks.count a = handedOut brk brk' a := by
  obtain ⟨m₀, -, -, hblocks, hlaid⟩ := hm.doubled_laidOut hr h
  refine ⟨hlaid.le, ?_⟩
  rw [hlaid.blocks a, hblocks, List.count_nil, Nat.zero_add]

end LightTable
