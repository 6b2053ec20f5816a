/-
  LightTable.Map.Answer
  ─────────────────────
  Which node answers to a key after an insert.

  A search takes the first node of a chain that stores its key.  A growth
  copies the nodes in the order of the double loop and links each copy at the
  head of its chain, so there the last node that stores the key takes over:
  the node that was written, unless one behind it stores the key as well
  (`LMap.heir`).  A key that one node stores keeps its node
  (`LMap.Single.heir`).
-/
import LightTable.Map.Copy

namespace LightTable

open ChainedHash

variable {m m' : LMap} {key key' : Key} {grows : Prop}

/-! ## §1. The node that answers. -/

/-- The last node that stores a key. -/
def LMap.last (m : LMap) (key : Key) : Option Node := lookup Node.storedKey key m.entries.reverse

/-- The node that answers to a key in a map that may then grow. -/
def LMap.answer (m : LMap) (grows : Prop) [Decidable grows] (key : Key) : Option Node :=
  if grows then m.last key else m.find key

/-- The nodes that a growth copies after the one found for `key`: the rest of
its chain and the later chains.  For an absent key the later chains. -/
def LMap.behind (m : LMap) (key : Key) : List Node :=
  ((m.chain key).getD []).drop (m.depth key + 1) ++ (m.data.drop (bucket m.size key + 1)).flatten

/-- The node that takes over from the one found for `key` when the map grows:
the last of the nodes behind it that store the key. -/
def LMap.heir (m : LMap) (grows : Prop) [Decidable grows] (key : Key) : Option Node :=
  if grows then lookup Node.storedKey key (m.behind key).reverse else none

section Answer

variable [Decidable grows]

theorem LMap.Wf.find_grown (hm : m.Wf) (h : m.Grown grows m') (hr : grows → m.Ready) (key : Key) :
    (m'.find key).map Node.content = (m.answer grows key).map Node.content := by
  unfold LMap.answer
  rcases h with ⟨hg, rfl⟩ | ⟨hg, brk, old, brk', heq⟩
  · rw [if_neg hg]
  · obtain ⟨nm, b, heq', -, -, -, -, -, -, hfind, -⟩ :=
      hm.doubled_spec (hr hg).room (hr hg).keys brk
    rw [heq] at heq'
    cases heq'
    rw [if_pos hg, hfind key]
    rfl

theorem LMap.last_mem {n : Node} (h : m.last key = some n) :
    n ∈ m.entries ∧ n.storedKey = some key := by
  obtain ⟨hmem, hkey⟩ := lookup_mem _ h
  exact ⟨List.mem_reverse.mp hmem, hkey⟩

theorem LMap.answer_mem {n : Node} (h : m.answer grows key = some n) :
    n ∈ m.entries ∧ n.storedKey = some key := by
  unfold LMap.answer at h
  split at h
  next => exact LMap.last_mem h
  next => exact LMap.find_mem h

theorem LMap.heir_mem {n : Node} (h : m.heir grows key = some n) :
    n ∈ m.behind key ∧ n.storedKey = some key := by
  unfold LMap.heir at h
  split at h
  next =>
    obtain ⟨hmem, hkey⟩ := lookup_mem _ h
    exact ⟨List.mem_reverse.mp hmem, hkey⟩
  next => exact absurd h (by simp)

theorem LMap.heir_of_not (hg : ¬ grows) (m : LMap) (key : Key) : m.heir grows key = none := by
  unfold LMap.heir
  rw [if_neg hg]

theorem answers_iff {n : Node} : answers key n = true ↔ n.storedKey = some key :=
  decide_eq_true_iff

/-! ## §2. The nodes around the one that is written. -/

/-- The node found for a key, in the order of the double loop, before and after
its union is written. -/
theorem LMap.Sized.entries_found (hm : m.Sized) {n : Node} (h : m.find key = some n) :
    ∃ front, m.entries = front ++ n :: m.behind key
      ∧ ∀ u, (m.overwrite key u).entries = front ++ n.setWord u :: m.behind key := by
  obtain ⟨l, hl⟩ := hm.chain key
  rw [LMap.find_eq hl] at h
  have hbehind : m.behind key = l.drop (l.findIdx (answers key) + 1)
      ++ (m.data.drop (bucket m.size key + 1)).flatten := by
    unfold LMap.behind LMap.depth
    rw [hl]
    rfl
  refine ⟨(m.data.take (bucket m.size key)).flatten ++ l.take (l.findIdx (answers key)), ?_, ?_⟩
  · have hsplit : l = l.take (l.findIdx (answers key)) ++ n :: l.drop (l.findIdx (answers key) + 1) :=
      lookup_split _ h
    unfold LMap.entries
    rw [flatten_split hl, hbehind]
    conv_lhs => rw [hsplit]
    simp only [List.append_assoc, List.cons_append]
  · intro u
    have hsplit : modifyFirst (answers key) (Node.setWord u) l
        = l.take (l.findIdx (answers key)) ++ n.setWord u :: l.drop (l.findIdx (answers key) + 1) :=
      modifyFirst_split _ h
    rw [LMap.overwrite_eq hl, hsplit, hbehind]
    unfold LMap.entries LMap.setChain
    rw [flatten_set _ (hm.bucket_lt key)]
    simp only [List.append_assoc, List.cons_append]

/-- A node linked for an absent key stands before the later chains. -/
theorem LMap.Sized.entries_absent (hm : m.Sized) (h : m.find key = none) :
    ∃ front, m.entries = front ++ m.behind key
      ∧ ∀ n, (m.link key n).entries = front ++ n :: m.behind key := by
  obtain ⟨l, hl⟩ := hm.chain key
  have hdepth : l.findIdx (answers key) = l.length := by
    rw [LMap.find_eq hl, lookup_eq_none] at h
    rw [List.findIdx_eq_length]
    intro n hn
    exact decide_eq_false (h n hn)
  have hbehind : m.behind key = (m.data.drop (bucket m.size key + 1)).flatten := by
    unfold LMap.behind LMap.depth
    rw [hl, Option.getD_some, hdepth, List.drop_eq_nil_of_le (Nat.le_succ _), List.nil_append]
  rw [hbehind]
  refine ⟨(m.data.take (bucket m.size key)).flatten ++ l, ?_, ?_⟩
  · unfold LMap.entries
    rw [flatten_split hl, List.append_assoc]
  · intro n
    rw [LMap.link_eq hl]
    show (m.setChain key (l ++ [n])).entries = _
    unfold LMap.entries LMap.setChain
    rw [flatten_set _ (hm.bucket_lt key)]
    simp only [List.append_assoc, List.cons_append, List.nil_append]

/-! ## §3. The inserted key. -/

theorem LMap.Sized.answer_found (hm : m.Sized) {n : Node} (h : m.find key = some n) (brk : Addr)
    (v : Value) :
    (m.inserted brk key v).answer grows key = some ((m.heir grows key).getD (n.setWord v.v)) := by
  rw [LMap.inserted_found h]
  unfold LMap.answer LMap.heir
  by_cases hg : grows
  · obtain ⟨front, -, hover⟩ := hm.entries_found h
    rw [if_pos hg, if_pos hg]
    unfold LMap.last
    rw [hover v.v]
    exact lookup_reverse_split Node.storedKey (e := n.setWord v.v) (LMap.find_mem h).2 _ _
  · rw [if_neg hg, if_neg hg, hm.find_overwrite, if_pos rfl, h]
    rfl

theorem LMap.Sized.answer_absent (hm : m.Sized) (h : m.find key = none) (hfit : key.Fits)
    (brk : Addr) (v : Value) :
    (m.inserted brk key v).answer grows key
      = some ((m.heir grows key).getD (freshNode brk key v)) := by
  have hstored := storedKey_freshNode hfit brk v
  rw [LMap.inserted_absent h]
  unfold LMap.answer LMap.heir
  by_cases hg : grows
  · obtain ⟨front, -, hlink⟩ := hm.entries_absent h
    rw [if_pos hg, if_pos hg]
    unfold LMap.last
    rw [hlink (freshNode brk key v)]
    exact lookup_reverse_split Node.storedKey hstored _ _
  · rw [if_neg hg, if_neg hg, hm.find_link hstored h, if_pos rfl]
    rfl

/-- A key that does not fit is not there after an insert either. -/
theorem LMap.Wf.answer_of_not_fits (hm : m.Wf) (hfit : ¬ key.Fits) : m.answer grows key = none := by
  rw [Option.eq_none_iff_forall_ne_some]
  intro n hn
  obtain ⟨hmem, hkey⟩ := LMap.answer_mem hn
  exact hfit ((hm.node n hmem).storedKey_fits hkey)

/-! ## §4. The other keys. -/

/-- The key that a node built for `key` stores. -/
def Key.stored (key : Key) : Option Key := (newNode 0 key .nil).1.storedKey

theorem freshNode_stored (brk : Addr) (key : Key) (v : Value) :
    (freshNode brk key v).storedKey = key.stored := by
  cases key <;> rfl

theorem Key.Fits.stored (h : key.Fits) : key.stored = some key :=
  storedKey_newNode h 0 .nil

/-- A node built for a numeric key stores no string. -/
theorem Key.stored_num (idx : UInt64) (name : Bytes) : (Key.num idx).stored ≠ some (.str name) := by
  intro h
  cases h

/-- The nodes that store another key stay, in their order. -/
theorem LMap.Wf.filter_inserted (hm : m.Wf) (hne : key.stored ≠ some key') (brk : Addr) (v : Value) :
    (m.inserted brk key v).entries.filter (answers key')
      = m.entries.filter (answers key') := by
  cases h : m.find key with
  | some n =>
    -- a node that is found stores its key, before and after it is written
    obtain ⟨hmem, hkey⟩ := LMap.find_mem h
    have hfit := (hm.node n hmem).storedKey_fits hkey
    have hout : ∀ n' : Node, n'.storedKey = some key → ¬ answers key' n' = true := by
      intro n' hn' ha
      exact hne (hfit.stored.trans (hn'.symm.trans (answers_iff.mp ha)))
    obtain ⟨front, hold, hover⟩ := hm.toSized.entries_found h
    rw [LMap.inserted_found h, hover v.v, hold, List.filter_append, List.filter_append,
      List.filter_cons_of_neg (hout (n.setWord v.v) hkey), List.filter_cons_of_neg (hout n hkey)]
  | none =>
    have hout : ¬ answers key' (freshNode brk key v) = true := by
      rw [answers_iff, freshNode_stored]
      exact hne
    obtain ⟨front, hold, hlink⟩ := hm.toSized.entries_absent h
    rw [LMap.inserted_absent h, hlink, hold, List.filter_append, List.filter_append,
      List.filter_cons_of_neg hout]

theorem LMap.Wf.find_inserted_ne (hm : m.Wf) (hne : key.stored ≠ some key') (brk : Addr)
    (v : Value) : (m.inserted brk key v).find key' = m.find key' := by
  cases h : m.find key with
  | some n =>
    obtain ⟨hmem, hkey⟩ := LMap.find_mem h
    have hfit := (hm.node n hmem).storedKey_fits hkey
    have hkk : key' ≠ key := by
      rintro rfl
      exact hne hfit.stored
    rw [LMap.inserted_found h, hm.toSized.find_overwrite, if_neg hkk]
  | none =>
    rw [LMap.inserted_absent h, hm.toSized.find_link', freshNode_stored, if_neg hne, Option.or_none]
    exact ite_self _

/-- An insert leaves what answers to another key. -/
theorem LMap.Wf.answer_inserted (hm : m.Wf) (hne : key.stored ≠ some key') (brk : Addr)
    (v : Value) : (m.inserted brk key v).answer grows key' = m.answer grows key' := by
  have hlast : ∀ m : LMap, m.last key' = (m.entries.filter (answers key')).getLast? :=
    fun m => lookup_reverse Node.storedKey key' m.entries
  unfold LMap.answer
  rw [hlast, hlast, hm.filter_inserted hne, hm.find_inserted_ne hne]

theorem Key.Fits.stored_ne (h : key.Fits) (hne : key' ≠ key) : key.stored ≠ some key' := by
  rw [h.stored]
  exact fun heq => hne (Option.some.inj heq).symm

end Answer

/-! ## §5. Keys that one node stores. -/

/-- The node found for the key is the only one that stores it. -/
def LMap.Single (m : LMap) (key : Key) : Prop :=
  m.entries.filter (answers key) = (m.find key).toList

/-- Nothing takes over from the only node of a key. -/
theorem LMap.Single.heir [Decidable grows] (h : m.Single key) (hm : m.Sized) : m.heir grows key = none := by
  have hnone : ∀ n ∈ m.behind key, n.storedKey ≠ some key := by
    unfold LMap.Single at h
    intro n hn hkey
    cases hf : m.find key with
    | some x =>
      obtain ⟨front, hold, -⟩ := hm.entries_found hf
      have hx := (LMap.find_mem hf).2
      rw [hf, hold, List.filter_append, List.filter_cons_of_pos (answers_iff.mpr hx)] at h
      have hlen := congrArg List.length h
      have hmem : n ∈ (m.behind key).filter (answers key) :=
        List.mem_filter.mpr ⟨hn, answers_iff.mpr hkey⟩
      have hpos := List.length_pos_of_mem hmem
      rw [List.length_append, List.length_cons, Option.toList_some, List.length_singleton] at hlen
      omega
    | none =>
      obtain ⟨front, hold, -⟩ := hm.entries_absent hf
      have hmem : n ∈ m.entries.filter (answers key) := by
        rw [hold]
        exact List.mem_filter.mpr ⟨List.mem_append.mpr (Or.inr hn), answers_iff.mpr hkey⟩
      rw [h, hf] at hmem
      exact absurd hmem (by simp)
  rw [Option.eq_none_iff_forall_ne_some]
  intro n hn
  obtain ⟨hmem, hkey⟩ := LMap.heir_mem hn
  exact hnone n hmem hkey

theorem LMap.Single.inserted_self (h : m.Single key) (hm : m.Sized) (hfit : key.Fits) (brk : Addr)
    (v : Value) : (m.inserted brk key v).Single key := by
  unfold LMap.Single at h ⊢
  cases hf : m.find key with
  | some n =>
    obtain ⟨front, hold, hover⟩ := hm.entries_found hf
    have hkey := (LMap.find_mem hf).2
    have hset : answers key (n.setWord v.v) = true := answers_iff.mpr hkey
    rw [hf, hold, List.filter_append, List.filter_cons_of_pos (answers_iff.mpr hkey)] at h
    -- nothing before and nothing behind the node stores the key
    have hlen := congrArg List.length h
    rw [List.length_append, List.length_cons, Option.toList_some, List.length_singleton] at hlen
    have hfront : front.filter (answers key) = [] :=
      List.eq_nil_of_length_eq_zero (by omega)
    have hbehind : (m.behind key).filter (answers key) = [] :=
      List.eq_nil_of_length_eq_zero (by omega)
    rw [LMap.inserted_found hf, hover v.v, hm.find_overwrite, if_pos rfl, hf, List.filter_append,
      hfront, List.filter_cons_of_pos hset, hbehind]
    rfl
  | none =>
    obtain ⟨front, hold, hlink⟩ := hm.entries_absent hf
    have hstored := storedKey_freshNode hfit brk v
    rw [hf, hold, List.filter_append, Option.toList_none, List.append_eq_nil_iff] at h
    rw [LMap.inserted_absent hf, hlink, hm.find_link hstored hf, if_pos rfl, List.filter_append,
      h.1, List.filter_cons_of_pos (answers_iff.mpr hstored), h.2]
    rfl

theorem LMap.Single.inserted (h : m.Single key') (hm : m.Wf) (hne : key.stored ≠ some key')
    (brk : Addr) (v : Value) : (m.inserted brk key v).Single key' := by
  unfold LMap.Single at h ⊢
  rw [hm.filter_inserted hne, hm.find_inserted_ne hne]
  exact h

/-- How many nodes store a key is read off their contents. -/
theorem length_filter_answers {l l' : List Node}
    (h : (l.map Node.content).Perm (l'.map Node.content)) (key : Key) :
    (l.filter (answers key)).length
      = (l'.filter (answers key)).length := by
  have hcount : ∀ l : List Node, (l.filter (answers key)).length
      = (l.map Node.content).countP (fun p => decide (p.1 = some key)) := by
    intro l
    rw [List.countP_map, ← List.countP_eq_length_filter]
    rfl
  rw [hcount, hcount, h.countP_eq]

/-- A growth puts every node into the chain of its key. -/
theorem LMap.Single.grown (h : m.Single key) (hm : m.Wf) (hg : m.Grown grows m')
    (hr : grows → m.Ready) : m'.Single key := by
  rcases hg with ⟨-, rfl⟩ | ⟨hg, brk, old, brk', heq⟩
  · exact h
  · obtain ⟨nm, b, heq', -, hwf, -, -, -, hplaced, -, cs, hcs, hperm⟩ :=
      hm.doubled_spec (hr hg).room (hr hg).keys brk
    rw [heq] at heq'
    cases heq'
    have hcontent : (m'.entries.map Node.content).Perm (m.entries.map Node.content) := by
      rw [← hcs]
      exact hperm.map Node.content
    have hlen := length_filter_answers hcontent key
    have hfind : m'.find key
        = (m'.entries.filter (answers key)).head? := by
      obtain ⟨l, hl⟩ := hwf.toSized.chain key
      rw [LMap.find_eq hl, lookup_bucket Node.storedKey hplaced hl, List.head?_filter]
      rfl
    unfold LMap.Single at h ⊢
    rw [h] at hlen
    rw [hfind]
    -- at most one node of the grown map stores the key
    generalize m'.entries.filter (answers key) = found at hlen ⊢
    cases hf : m.find key with
    | none =>
      rw [hf] at hlen
      rw [List.eq_nil_of_length_eq_zero hlen]
      rfl
    | some n =>
      rw [hf] at hlen
      obtain ⟨x, rfl⟩ := List.length_eq_one_iff.mp hlen
      rfl

theorem LMap.new_single (n : Nat) (key : Key) : (LMap.new n).Single key := by
  unfold LMap.Single
  have hnone : (LMap.new n).find key = none := by
    rw [Option.eq_none_iff_forall_ne_some]
    intro x hx
    have hmem := (LMap.find_mem hx).1
    rw [LMap.new_entries] at hmem
    exact absurd hmem (by simp)
  rw [LMap.new_entries, hnone]
  rfl

end LightTable
