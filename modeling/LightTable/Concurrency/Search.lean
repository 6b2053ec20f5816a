/-
  LightTable.Concurrency.Search
  ─────────────────────────────
  `_search_map` without a lock, beside one writer.

  A reader grabs the current map, walks the chain of its key one node a step,
  copies the value it found, releases the map, and starts again if the map it
  grabbed is no longer current.  The writer holds the table lock: it overwrites
  one union or links one node, or it fills a private map from the current one
  and makes it current.  No map object is ever given back, so the counts of the
  maps play no part here, and `_release_map` does nothing.

  A map that was replaced never becomes current again.  So a reader that ends
  with the map it grabbed read from the current map all the time, and the
  stored keys of its chain only grew at the end (`SearchState.keys`).
-/
import LightTable.Table.Refine
import Mathlib.Data.List.Induction

namespace LightTable

open ChainedHash

/-! ## §1. The transition system. -/

/-- Where a reader is in `_search_map`. -/
inductive Phase where
  /-- before `_grab_map` -/
  | grab
  /-- at the `j`-th pointer of the chain in the map `m` -/
  | walk (m : Addr) (j : Nat)
  /-- at the `j`-th node, which answers to the key -/
  | copy (m : Addr) (j : Nat)
  /-- before `_release_map` -/
  | release (m : Addr)
  /-- before the comparison with the current map -/
  | compare (m : Addr)

/-- A search that has been called: its key, and what `*result` holds. -/
structure Reader where
  key : Key
  result : Value
  phase : Phase

/-- The map objects, the current one, the private one of the writer, and the
readers; `none` is a reader between searches. -/
structure SearchState where
  maps : Addr → Option LMap
  cur : Addr
  brk : Addr
  filled : Option Addr
  readers : List (Option Reader)

/-- The chain of a key in the map at `a`. -/
def SearchState.chainAt (s : SearchState) (a : Addr) (key : Key) : Option (List Node) :=
  (s.maps a).bind (fun m => m.chain key)

/-- The next step of a search: what it returns, if it does, and the reader
after it. -/
def SearchState.next (s : SearchState) (r : Reader) :
    Option (Option (LType × Word) × Option Reader) :=
  match r.phase with
  | .grab => some (none, some { r with phase := .walk s.cur 0 })
  | .walk m j => do
      let chain ← s.chainAt m r.key
      match chain[j]? with
      | some n =>
          if isInHash r.key n then return (none, some { r with phase := .copy m j })
          else return (none, some { r with phase := .walk m (j + 1) })
      | none =>
          return (none, some { r with
            result := { r.result with type := .nil }, phase := .release m })
  | .copy m j => do
      let chain ← s.chainAt m r.key
      let n ← chain[j]?
      return (none, some { r with result := n.v, phase := .release m })
  | .release m => some (none, some { r with phase := .compare m })
  | .compare m =>
      if m ≠ s.cur then some (none, some { r with phase := .grab })
      else some (some (r.result.type, r.result.v), none)

/-- A step: reader `i` calls `_search_map`, or takes its next step; the writer
inserts, fills a private map, or makes it current. -/
inductive SearchStep where
  | call (i : Nat) (key : Key) (result : Value)
  | read (i : Nat)
  | write (key : Key) (v : Value)
  | fill
  | swap

/-- One step; the output is the search that returned, with its reader. -/
def SearchState.step (s : SearchState) :
    SearchStep → Option (Option (Nat × LType × Word) × SearchState)
  | .call i key result => do
      let r ← s.readers[i]?
      if r.isSome then none
      else return (none, { s with readers := s.readers.set i (some ⟨key, result, .grab⟩) })
  | .read i => do
      let r ← s.readers[i]?
      let r ← r
      let (out, r) ← s.next r
      return (out.map (fun a => (i, a)), { s with readers := s.readers.set i r })
  | .write key v =>
      if s.filled.isSome then none
      else do
        let m ← s.maps s.cur
        let r ← m.insertValue s.brk key v 0
        return (none, { s with
          maps := Function.update s.maps s.cur (some r.map), brk := r.brk })
  | .fill =>
      if s.filled.isSome then none
      else do
        let old ← s.maps s.cur
        if asSize old.newSize < 1152921504606846976 then
          let (m, old, brk) ← old.doubled (s.brk + 1)
          return (none, { s with
            maps := Function.update (Function.update s.maps s.cur (some old)) s.brk (some m),
            brk := brk, filled := some s.brk })
        else none
  | .swap => do
      let a ← s.filled
      return (none, { s with cur := a, filled := none })

/-- A fresh table, with its map at `a`, and `n` readers. -/
def SearchState.start (a : Addr) (n : Nat) : SearchState :=
  { maps := Function.update (fun _ => none) a (some (LMap.new 29)), cur := a, brk := a + 1,
    filled := none, readers := List.replicate n none }

/-! ## §2. What a search should tell. -/

/-- What the table holds: the type and the union under a key of its current
map. -/
def SearchState.holds (s : SearchState) (key : Key) : Option (LType × Word) :=
  (s.maps s.cur).bind (fun m => m.view key)

/-- A search that returns `a` is right when `c` is what the table holds. -/
def Tells (a : LType × Word) : Option (LType × Word) → Prop
  | some tv => a = tv
  | none => a.1 = .nil

instance (a : LType × Word) : ∀ c, Decidable (Tells a c)
  | some _ => inferInstanceAs (Decidable (_ = _))
  | none => inferInstanceAs (Decidable (_ = _))

/-- The writer inserts values of the four types under keys below 2^31. -/
def SearchStep.Proper : SearchStep → Prop
  | .write key v => key.Short ∧ v.type ≠ .nil
  | _ => True

instance : ∀ e : SearchStep, Decidable e.Proper
  | .write key v => inferInstanceAs (Decidable (key.Short ∧ v.type ≠ .nil))
  | .call _ _ _ => isTrue trivial
  | .read _ => isTrue trivial
  | .fill => isTrue trivial
  | .swap => isTrue trivial

/-! ## §3. The invariant. -/

variable {s s' : SearchState}

/-- The current map satisfies the hash table invariant, but for the counters of
its values while a private copy shares them. -/
structure SearchState.Inv (s : SearchState) : Prop where
  cur_lt : s.cur < s.brk
  plain : s.filled = none → ∃ m, s.maps s.cur = some m ∧ m.Inv
  full : ∀ a, s.filled = some a → a ≠ s.cur ∧ a < s.brk
    ∧ ∃ m m' : LMap, s.maps s.cur = some m.bump ∧ m.Inv
      ∧ s.maps a = some m' ∧ m'.Inv ∧ m'.view = m.view

theorem LMap.bump_chain (m : LMap) (key : Key) :
    m.bump.chain key = (m.chain key).map (List.map Node.bump) :=
  List.getElem?_map ..

theorem LMap.bump_view (m : LMap) : m.bump.view = m.view := by
  funext key
  unfold LMap.view LMap.find
  rw [LMap.bump_chain]
  cases m.chain key with
  | none => rfl
  | some c =>
    show (lookup Node.storedKey key (c.map Node.bump)).map _ = (lookup Node.storedKey key c).map _
    refine lookup_congr Node.storedKey key ?_
    rw [List.map_map]
    rfl

/-- The current map is there, and its nodes are well formed. -/
theorem SearchState.Inv.cur_map (h : s.Inv) :
    ∃ m, s.maps s.cur = some m ∧ m.Sized ∧ ∀ n ∈ m.entries, n.Wf := by
  cases hf : s.filled with
  | none =>
    obtain ⟨m, hm, hinv⟩ := h.plain hf
    exact ⟨m, hm, hinv.toSized, hinv.node⟩
  | some a =>
    obtain ⟨-, -, m, m', hm, hinv, -⟩ := h.full a hf
    refine ⟨m.bump, hm, ⟨hinv.pos, hinv.lt, ?_⟩, ?_⟩
    · show (m.data.map _).length = _
      rw [List.length_map]
      exact hinv.length
    · intro n hn
      rw [LMap.bump_entries] at hn
      obtain ⟨x, hx, rfl⟩ := List.mem_map.mp hn
      exact (hinv.node x hx).withValue _

/-- The stored keys along the current chain of a key. -/
def SearchState.keys (s : SearchState) (key : Key) : List (Option Key) :=
  ((s.chainAt s.cur key).getD []).map Node.storedKey

/-- The current chain of a key: what the table holds is the first node that
stores the key. -/
theorem SearchState.Inv.chain (h : s.Inv) (key : Key) :
    ∃ c, s.chainAt s.cur key = some c ∧ (∀ n ∈ c, n.Wf) ∧ s.keys key = c.map Node.storedKey
      ∧ s.holds key = (lookup Node.storedKey key c).map (fun n => (n.v.type, n.v.v)) := by
  obtain ⟨m, hm, hsized, hwf⟩ := h.cur_map
  obtain ⟨c, hc⟩ := hsized.chain key
  have hchain : s.chainAt s.cur key = some c := by
    unfold SearchState.chainAt
    rw [hm]
    exact hc
  refine ⟨c, hchain, fun n hn => hwf n (LMap.mem_entries hc hn), ?_, ?_⟩
  · unfold SearchState.keys
    rw [hchain]
    rfl
  · unfold SearchState.holds
    rw [hm, Option.bind_some]
    unfold LMap.view
    rw [LMap.find_eq hc]

/-! ## §4. The reader. -/

/-- A map that a reader may have grabbed. -/
def SearchState.Known (s : SearchState) (a : Addr) : Prop := a < s.brk ∧ s.filled ≠ some a

/-- What a reader relies on if the map it grabbed is still current: the nodes
it walked past do not store its key, and what it copied was right at some
moment, which `M` says. -/
def Reader.Ok (M : LType × Word → Prop) (s : SearchState) (r : Reader) : Prop :=
  match r.phase with
  | .grab => True
  | .walk m j => s.Known m ∧ (m = s.cur →
      ∃ p, p <+: s.keys r.key ∧ p.length = j ∧ some r.key ∉ p)
  | .copy m j => s.Known m ∧ (m = s.cur →
      ∃ p, p ++ [some r.key] <+: s.keys r.key ∧ p.length = j ∧ some r.key ∉ p)
  | .release m => s.Known m ∧ (m = s.cur → M (r.result.type, r.result.v))
  | .compare m => s.Known m ∧ (m = s.cur → M (r.result.type, r.result.v))

/-- `s'` comes after `s`: a map a reader may have grabbed in `s` is current in
`s'` only if it was in `s`, and then its chains only grew. -/
structure SearchState.Later (s s' : SearchState) : Prop where
  known : ∀ a, s.Known a → s'.Known a
  cur : ∀ a, s.Known a → a = s'.cur → a = s.cur
  keys : s'.cur = s.cur → ∀ key, s.keys key <+: s'.keys key

theorem Reader.Ok.later {M : LType × Word → Prop} {r : Reader} (h : r.Ok M s)
    (hl : s.Later s') : r.Ok M s' := by
  obtain ⟨key, result, phase⟩ := r
  cases phase with
  | grab => trivial
  | walk m j =>
    obtain ⟨hk, hp⟩ := h
    refine ⟨hl.known m hk, ?_⟩
    intro hm
    have hcur := hl.cur m hk hm
    obtain ⟨p, hpre, hlen, hnot⟩ := hp hcur
    exact ⟨p, hpre.trans (hl.keys (hm.symm.trans hcur) key), hlen, hnot⟩
  | copy m j =>
    obtain ⟨hk, hp⟩ := h
    refine ⟨hl.known m hk, ?_⟩
    intro hm
    have hcur := hl.cur m hk hm
    obtain ⟨p, hpre, hlen, hnot⟩ := hp hcur
    exact ⟨p, hpre.trans (hl.keys (hm.symm.trans hcur) key), hlen, hnot⟩
  | release m => exact ⟨hl.known m h.1, fun hm => h.2 (hl.cur m h.1 hm)⟩
  | compare m => exact ⟨hl.known m h.1, fun hm => h.2 (hl.cur m h.1 hm)⟩

theorem Reader.Ok.mono {M M' : LType × Word → Prop} {r : Reader} (h : r.Ok M s)
    (hM : ∀ a, M a → M' a) : r.Ok M' s := by
  obtain ⟨key, result, phase⟩ := r
  cases phase with
  | grab => trivial
  | walk m j => exact h
  | copy m j => exact h
  | release m => exact ⟨h.1, fun hm => hM _ (h.2 hm)⟩
  | compare m => exact ⟨h.1, fun hm => hM _ (h.2 hm)⟩

/-- One more key along a chain. -/
theorem prefix_snoc {A : Type*} {p l : List A} {x : A} (h : p <+: l)
    (hx : l[p.length]? = some x) : p ++ [x] <+: l := by
  obtain ⟨t, rfl⟩ := h
  rw [List.getElem?_append_right (Nat.le_refl _), Nat.sub_self] at hx
  cases t with
  | nil => exact absurd hx (by simp)
  | cons y t =>
    simp only [List.getElem?_cons_zero, Option.some.injEq] at hx
    subst hx
    exact ⟨t, by simp⟩

/-- A step of a reader: it goes on in order, or returns what was right. -/
theorem SearchState.Inv.next (h : s.Inv) {M : LType × Word → Prop} {r : Reader} (hr : r.Ok M s)
    (hM : ∀ a, Tells a (s.holds r.key) → M a) {out : Option (LType × Word)}
    {r' : Option Reader} (hx : s.next r = some (out, r')) :
    (out = none ∧ ∃ q, r' = some q ∧ q.key = r.key ∧ q.Ok M s) ∨ ∃ a, out = some a ∧ M a := by
  obtain ⟨key, result, phase⟩ := r
  obtain ⟨c, hc, hwf, hkeys, hholds⟩ := h.chain key
  unfold SearchState.next at hx
  cases phase with
  | grab =>
    simp only [Option.some.injEq, Prod.mk.injEq] at hx
    obtain ⟨rfl, rfl⟩ := hx
    refine Or.inl ⟨rfl, _, rfl, rfl, ⟨h.cur_lt, ?_⟩, ?_⟩
    · intro hf
      exact (h.full s.cur hf).1 rfl
    · intro _
      exact ⟨[], List.nil_prefix, rfl, by simp⟩
  | walk m j =>
    obtain ⟨hk, hp⟩ := hr
    obtain ⟨chain, hchain, hx⟩ := Option.bind_eq_some_iff.mp hx
    -- if `m` is current, the chain is the current one
    have hcur : m = s.cur → chain = c := by
      intro hm
      rw [hm] at hchain
      exact Option.some.inj (hchain.symm.trans hc)
    cases hn : chain[j]? with
    | some n =>
      simp only [hn] at hx
      have hkeyj : m = s.cur → (s.keys key)[j]? = some n.storedKey
          ∧ isInHash key n = decide (n.storedKey = some key) := by
        intro hm
        rw [hcur hm] at hn
        refine ⟨?_, isInHash_iff (hwf n (List.mem_of_getElem? hn)) key⟩
        rw [hkeys, List.getElem?_map, hn]
        rfl
      by_cases hin : isInHash key n = true
      · simp only [hin, if_true, Option.pure_def, Option.some.injEq, Prod.mk.injEq] at hx
        obtain ⟨rfl, rfl⟩ := hx
        refine Or.inl ⟨rfl, _, rfl, rfl, hk, ?_⟩
        intro hm
        obtain ⟨p, hpre, hlen, hnot⟩ := hp hm
        obtain ⟨hj, hiff⟩ := hkeyj hm
        rw [hiff, decide_eq_true_eq] at hin
        rw [hin, ← hlen] at hj
        exact ⟨p, prefix_snoc hpre hj, hlen, hnot⟩
      · simp only [hin, if_false, Option.pure_def, Option.some.injEq, Prod.mk.injEq,
          Bool.false_eq_true] at hx
        obtain ⟨rfl, rfl⟩ := hx
        refine Or.inl ⟨rfl, _, rfl, rfl, hk, ?_⟩
        intro hm
        obtain ⟨p, hpre, hlen, hnot⟩ := hp hm
        obtain ⟨hj, hiff⟩ := hkeyj hm
        rw [hiff, decide_eq_true_eq] at hin
        rw [← hlen] at hj
        refine ⟨p ++ [n.storedKey], prefix_snoc hpre hj, by rw [List.length_append, hlen]; rfl, ?_⟩
        intro hmem
        rcases List.mem_append.mp hmem with hmem | hmem
        · exact hnot hmem
        · exact hin (List.mem_singleton.mp hmem).symm
    | none =>
      simp only [hn, Option.pure_def, Option.some.injEq, Prod.mk.injEq] at hx
      obtain ⟨rfl, rfl⟩ := hx
      refine Or.inl ⟨rfl, _, rfl, rfl, hk, ?_⟩
      intro hm
      apply hM
      obtain ⟨p, hpre, hlen, hnot⟩ := hp hm
      rw [hcur hm, List.getElem?_eq_none_iff] at hn
      -- the reader walked past the whole chain
      have hall : p = s.keys key := by
        apply hpre.eq_of_length_le
        rw [hkeys, List.length_map]
        omega
      have hnone : s.holds key = none := by
        rw [hholds, (lookup_eq_none Node.storedKey).mpr]
        · rfl
        · intro n hmem hkn
          apply hnot
          rw [hall, hkeys, ← hkn]
          exact List.mem_map_of_mem hmem
      rw [hnone]
      rfl
  | copy m j =>
    obtain ⟨hk, hp⟩ := hr
    obtain ⟨chain, hchain, hx⟩ := Option.bind_eq_some_iff.mp hx
    obtain ⟨n, hn, hx⟩ := Option.bind_eq_some_iff.mp hx
    simp only [Option.pure_def, Option.some.injEq, Prod.mk.injEq] at hx
    obtain ⟨rfl, rfl⟩ := hx
    refine Or.inl ⟨rfl, _, rfl, rfl, hk, ?_⟩
    intro hm
    apply hM
    obtain ⟨p, hpre, hlen, hnot⟩ := hp hm
    rw [hm] at hchain
    have hcc : chain = c := Option.some.inj (hchain.symm.trans hc)
    rw [hkeys] at hpre
    have hfound := lookup_of_keys Node.storedKey hpre hnot
    rw [hlen, ← hcc, hn] at hfound
    rw [hholds, ← hcc, hfound]
    rfl
  | release m =>
    simp only [Option.some.injEq, Prod.mk.injEq] at hx
    obtain ⟨rfl, rfl⟩ := hx
    exact Or.inl ⟨rfl, _, rfl, rfl, hr⟩
  | compare m =>
    by_cases hm : m = s.cur
    · simp only [ne_eq, hm, not_true_eq_false, if_false, Option.some.injEq, Prod.mk.injEq] at hx
      exact Or.inr ⟨_, hx.1.symm, hr.2 hm⟩
    · simp only [ne_eq, hm, not_false_eq_true, if_true, Option.some.injEq, Prod.mk.injEq] at hx
      obtain ⟨rfl, rfl⟩ := hx
      exact Or.inl ⟨rfl, _, rfl, rfl, trivial⟩

/-! ## §5. The writer. -/

/-- What a step does to the table as a map from keys to values: an insert under
a key that is there keeps the type. -/
def SearchStep.after (e : SearchStep) (c : Key → Option (LType × Word)) :
    Key → Option (LType × Word) :=
  match e with
  | .write key v => Function.update c key (some (written (c key) v.type v.v))
  | _ => c

theorem prefix_of_eq {α : Type} {l l' : List α} (h : l = l') : l <+: l' :=
  h ▸ List.prefix_rfl

/-- Every chain keeps its stored keys in order when a value is inserted. -/
theorem LMap.Sized.keys_inserted {m : LMap} (hm : m.Sized) (brk : Addr) (key : Key) (v : Value)
    (key' : Key) :
    ((m.chain key').getD []).map Node.storedKey
      <+: (((m.inserted brk key v).chain key').getD []).map Node.storedKey := by
  obtain ⟨c, hc⟩ := hm.chain key
  -- only the chain of `key` is written
  have hset : ∀ c' : List Node, c.map Node.storedKey <+: c'.map Node.storedKey →
      ((m.chain key').getD []).map Node.storedKey
        <+: (((m.setChain key c').chain key').getD []).map Node.storedKey := by
    intro c' hpre
    rw [hm.chain_setChain]
    by_cases hb : bucket m.size key' = bucket m.size key
    · rw [if_pos hb, LMap.chain_congr hb, hc]
      exact hpre
    · exact prefix_of_eq (by rw [if_neg hb])
  cases hf : m.find key with
  | some n =>
    rw [LMap.inserted_found hf, LMap.overwrite_eq hc]
    apply hset
    exact prefix_of_eq
      (by rw [map_modifyFirst (g := Node.storedKey) (Node.storedKey_setWord v.v)])
  | none =>
    rw [LMap.inserted_absent hf, LMap.link_eq hc]
    apply hset (c ++ [freshNode brk key v])
    rw [List.map_append]
    exact List.prefix_append _ _

/-- What a step of the writer leaves. -/
structure SearchState.Wrote (s : SearchState) (e : SearchStep) (s' : SearchState) : Prop where
  inv : s'.Inv
  later : s.Later s'
  holds : s'.holds = e.after s.holds
  readers : s'.readers = s.readers

/-- An overwrite or a link. -/
theorem SearchState.Inv.write (h : s.Inv) {key : Key} {v : Value} (hk : key.Short)
    (hv : v.type ≠ .nil) {out : Option (Nat × LType × Word)}
    (hx : s.step (.write key v) = some (out, s')) : out = none ∧ s.Wrote (.write key v) s' := by
  cases hf : s.filled with
  | some a =>
    unfold SearchState.step at hx
    exact absurd hx (by simp [hf])
  | none =>
    obtain ⟨m, hm, hinv⟩ := h.plain hf
    -- an insert into the current map, which no doubling has copied yet
    obtain ⟨brk', hle, hins⟩ := hinv.toWf.insertValue_eq key s.brk v
    set s₁ : SearchState := { s with
      maps := Function.update s.maps s.cur (some (m.inserted s.brk key v)), brk := brk' } with hs₁
    have hstep : s.step (.write key v) = some (none, s₁) := by
      unfold SearchState.step
      simp only [hs₁, hf, hm, hins, Option.isSome_none, Bool.false_eq_true, if_false,
        Option.bind_eq_bind, Option.bind_some]
      rfl
    rw [hstep, Option.some.injEq, Prod.mk.injEq] at hx
    obtain ⟨hout, rfl⟩ := hx
    have hm₁ : s₁.maps s₁.cur = some (m.inserted s.brk key v) := Function.update_self ..
    refine ⟨hout.symm, ⟨?_, ?_, ?_⟩, ⟨?_, ?_, ?_⟩, ?_, rfl⟩
    · exact Nat.lt_of_lt_of_le h.cur_lt hle
    · exact fun _ => ⟨_, hm₁, hinv.inserted hk.fits s.brk hv⟩
    · intro a ha
      exact absurd (hf.symm.trans ha) (by simp)
    · exact fun a ha => ⟨Nat.lt_of_lt_of_le ha.1 hle, ha.2⟩
    · exact fun a _ ha => ha
    · -- along a chain there is at most one key more
      intro _ key'
      unfold SearchState.keys SearchState.chainAt
      rw [hm₁, hm]
      exact hinv.toSized.keys_inserted s.brk key v key'
    · -- the map now holds what the step wrote
      funext key'
      have hview := hinv.toSized.view_inserted hk.fits s.brk v
      unfold SearchState.holds SearchStep.after
      rw [hm₁, hm]
      exact congrFun hview key'

/-- The private map is filled: the values of the current one are shared. -/
theorem SearchState.Inv.fill (h : s.Inv) {out : Option (Nat × LType × Word)}
    (hx : s.step .fill = some (out, s')) : out = none ∧ s.Wrote .fill s' := by
  cases hf : s.filled with
  | some a =>
    unfold SearchState.step at hx
    exact absurd hx (by simp [hf])
  | none =>
    obtain ⟨m, hm, hinv⟩ := h.plain hf
    -- the new size may be too great to allocate
    by_cases hroom : asSize m.newSize < 1152921504606846976
    · obtain ⟨nm, brk', heq, hle, hinv', -, -, hview, -⟩ :=
        hinv.doubled_spec (hinv.toSized.canGrow_iff.mpr hroom) (s.brk + 1)
      set s₁ : SearchState := { s with
        maps := Function.update (Function.update s.maps s.cur (some m.bump)) s.brk (some nm),
        brk := brk', filled := some s.brk } with hs₁
      have hstep : s.step .fill = some (none, s₁) := by
        unfold SearchState.step
        simp only [hf, hm, heq, hroom, Option.isSome_none, Bool.false_eq_true, if_false, if_true,
          Option.bind_eq_bind, Option.bind_some]
        rfl
      rw [hstep, Option.some.injEq, Prod.mk.injEq] at hx
      obtain ⟨hout, rfl⟩ := hx
      have hne : s.cur ≠ s.brk := Nat.ne_of_lt h.cur_lt
      have hlt : s.brk < brk' := hle
      have hm₁ : s₁.maps s₁.cur = some m.bump := by
        show Function.update (Function.update s.maps s.cur _) s.brk _ s.cur = _
        rw [Function.update_of_ne hne, Function.update_self]
      refine ⟨hout.symm, ⟨?_, ?_, ?_⟩, ⟨?_, ?_, ?_⟩, ?_, rfl⟩
      · exact Nat.lt_trans h.cur_lt hlt
      · intro hn
        exact absurd hn (by simp [hs₁])
      · intro a ha
        -- the private map is new and views as the current one
        obtain rfl : s.brk = a := Option.some.inj ha
        exact ⟨hne.symm, hlt, m, nm, hm₁, hinv, Function.update_self .., hinv', hview⟩
      · intro a ha
        refine ⟨Nat.lt_trans ha.1 hlt, ?_⟩
        intro heq
        obtain rfl : s.brk = a := Option.some.inj heq
        exact absurd ha.1 (Nat.lt_irrefl _)
      · exact fun a _ ha => ha
      · -- the count of a shared value changes, its key does not
        intro _ key'
        unfold SearchState.keys SearchState.chainAt
        rw [hm₁, hm]
        simp only [Option.bind_some, LMap.bump_chain]
        cases m.chain key' with
        | none => exact List.prefix_rfl
        | some c =>
          show c.map Node.storedKey <+: (c.map Node.bump).map Node.storedKey
          rw [List.map_map]
          exact List.prefix_rfl
      · funext key'
        unfold SearchState.holds
        rw [hm₁, hm]
        exact congrFun m.bump_view key'
    · unfold SearchState.step at hx
      exact absurd hx (by simp [hf, hm, hroom])

/-- The private map becomes current: it holds what the old one held. -/
theorem SearchState.Inv.swap (h : s.Inv) {out : Option (Nat × LType × Word)}
    (hx : s.step .swap = some (out, s')) : out = none ∧ s.Wrote .swap s' := by
  unfold SearchState.step at hx
  obtain ⟨a, ha, hx⟩ := Option.bind_eq_some_iff.mp hx
  simp only [Option.pure_def, Option.some.injEq, Prod.mk.injEq] at hx
  obtain ⟨rfl, rfl⟩ := hx
  obtain ⟨hne, hlt, m, m', hm, hinv, hm', hinv', hview⟩ := h.full a ha
  refine ⟨rfl, ?_, ?_, ?_, rfl⟩
  · refine ⟨hlt, fun _ => ⟨m', hm', hinv'⟩, ?_⟩
    intro b hb
    exact absurd hb (by simp)
  · refine ⟨?_, ?_, ?_⟩
    · exact fun b hb => ⟨hb.1, by simp⟩
    · -- nobody has grabbed the private map
      intro b hb hba
      have hba : b = a := hba
      exact absurd (by rw [hba]; exact ha) hb.2
    · intro hcur
      exact absurd hcur hne
  · funext key
    unfold SearchState.holds
    rw [hm, hm']
    show m'.view key = m.bump.view key
    rw [hview, m.bump_view]

/-! ## §6. Whole runs. -/

/-- Only the readers change. -/
theorem SearchState.Inv.of_readers (h : s.Inv) (rs : List (Option Reader)) :
    ({ s with readers := rs } : SearchState).Inv :=
  ⟨h.cur_lt, h.plain, h.full⟩

theorem SearchState.Later.of_readers (s : SearchState) (rs : List (Option Reader)) :
    s.Later { s with readers := rs } :=
  ⟨fun _ ha => ha, fun _ _ ha => ha, fun _ _ => List.prefix_rfl⟩

/-- A step leaves the invariant, and the table with what the step wrote. -/
theorem SearchState.Inv.step (h : s.Inv) {e : SearchStep} (hp : e.Proper)
    {out : Option (Nat × LType × Word)} (hx : s.step e = some (out, s')) :
    s'.Inv ∧ s.Later s' ∧ s'.holds = e.after s.holds := by
  cases e with
  | write key v =>
    obtain ⟨-, hw⟩ := h.write hp.1 hp.2 hx
    exact ⟨hw.inv, hw.later, hw.holds⟩
  | fill =>
    obtain ⟨-, hw⟩ := h.fill hx
    exact ⟨hw.inv, hw.later, hw.holds⟩
  | swap =>
    obtain ⟨-, hw⟩ := h.swap hx
    exact ⟨hw.inv, hw.later, hw.holds⟩
  | call i key result =>
    -- a reader moves, the maps stay
    unfold SearchState.step at hx
    obtain ⟨r, -, hx⟩ := Option.bind_eq_some_iff.mp hx
    split at hx
    · exact absurd hx (by simp)
    · simp only [Option.pure_def, Option.some.injEq, Prod.mk.injEq] at hx
      rw [← hx.2]
      exact ⟨h.of_readers _, .of_readers s _, rfl⟩
  | read i =>
    unfold SearchState.step at hx
    obtain ⟨r, -, hx⟩ := Option.bind_eq_some_iff.mp hx
    obtain ⟨r, -, hx⟩ := Option.bind_eq_some_iff.mp hx
    obtain ⟨⟨o, r'⟩, -, hx⟩ := Option.bind_eq_some_iff.mp hx
    simp only [Option.pure_def, Option.some.injEq, Prod.mk.injEq] at hx
    rw [← hx.2]
    exact ⟨h.of_readers _, .of_readers s _, rfl⟩

/-- What the table holds after a run of steps, whatever the readers do. -/
def contents (steps : List SearchStep) : Key → Option (LType × Word) :=
  steps.foldl (fun c e => e.after c) (fun _ => none)

theorem contents_snoc (steps : List SearchStep) (e : SearchStep) :
    contents (steps ++ [e]) = e.after (contents steps) := by
  unfold contents
  rw [List.foldl_append]
  rfl

theorem SearchState.start_map (a : Addr) (n : Nat) :
    (SearchState.start a n).maps (SearchState.start a n).cur = some (LMap.new 29) := by
  show Function.update (fun _ => none) a (some (LMap.new 29)) a = _
  exact Function.update_self ..

theorem SearchState.start_inv (a : Addr) (n : Nat) : (SearchState.start a n).Inv where
  cur_lt := Nat.lt_succ_self a
  plain := fun _ => ⟨LMap.new 29, SearchState.start_map a n, LMap.new_inv⟩
  full := fun b hb => absurd hb (by simp [SearchState.start])

theorem SearchState.start_holds (a : Addr) (n : Nat) :
    (SearchState.start a n).holds = contents [] := by
  funext key
  unfold SearchState.holds
  rw [SearchState.start_map]
  exact LMap.new_view key

/-- Along every run the table holds what was inserted. -/
theorem SearchState.run_holds {a : Addr} {n : Nat} {steps : List SearchStep}
    (hp : ∀ e ∈ steps, e.Proper) :
    ∀ {outs : List (Option (Nat × LType × Word))} {s : SearchState},
      Run.run SearchState.step (SearchState.start a n) steps = some (outs, s) →
      s.Inv ∧ s.holds = contents steps := by
  induction steps using List.reverseRecOn with
  | nil =>
    intro outs s hrun
    simp only [Run.run_nil, Option.some.injEq, Prod.mk.injEq] at hrun
    rw [← hrun.2]
    exact ⟨SearchState.start_inv a n, SearchState.start_holds a n⟩
  | append_singleton steps e ih =>
    intro outs s hrun
    obtain ⟨outs₁, s₁, o, h₁, he, -⟩ := (Run.run_snoc_some _).mp hrun
    obtain ⟨hinv, hholds⟩ := ih (fun x hx => hp x (List.mem_append_left _ hx)) h₁
    obtain ⟨hinv', -, hholds'⟩ := hinv.step (hp e (by simp)) he
    rw [contents_snoc, ← hholds]
    exact ⟨hinv', hholds'⟩

/-- At some moment of the steps from `s` on, the table held what `tv` says. -/
def SearchState.Held (s : SearchState) (steps : List SearchStep) (key : Key)
    (tv : LType × Word) : Prop :=
  ∃ before after os x, steps = before ++ after
    ∧ Run.run SearchState.step s before = some (os, x) ∧ Tells tv (x.holds key)

theorem SearchState.Held.snoc {steps : List SearchStep} {key : Key} {tv : LType × Word}
    (h : s.Held steps key tv) (e : SearchStep) : s.Held (steps ++ [e]) key tv := by
  obtain ⟨before, after, os, x, heq, hrun, htells⟩ := h
  exact ⟨before, after ++ [e], os, x, by rw [heq, List.append_assoc], hrun, htells⟩

/-- A search that has been called and has not returned is in order. -/
theorem SearchState.Inv.searching (h : s.Inv) {i : Nat} {key : Key} {result : Value}
    {mid : List SearchStep} (hp : ∀ e ∈ mid, e.Proper) :
    ∀ {outs : List (Option (Nat × LType × Word))} {s' : SearchState},
      Run.run SearchState.step s (.call i key result :: mid) = some (outs, s') →
      (∀ o ∈ outs, ∀ tv, o ≠ some (i, tv)) →
      s'.Inv ∧ ∃ r, s'.readers[i]? = some (some r) ∧ r.key = key
        ∧ r.Ok (s.Held (.call i key result :: mid) key) s' := by
  induction mid using List.reverseRecOn with
  | nil =>
    intro outs s' hrun _
    obtain ⟨o, s₁, os, hcall, hrun, -⟩ := (Run.run_cons_some _).mp hrun
    simp only [Run.run_nil, Option.some.injEq, Prod.mk.injEq] at hrun
    obtain ⟨-, rfl⟩ := hrun
    unfold SearchState.step at hcall
    obtain ⟨r, hr, hcall⟩ := Option.bind_eq_some_iff.mp hcall
    split at hcall
    · exact absurd hcall (by simp)
    · simp only [Option.pure_def, Option.some.injEq, Prod.mk.injEq] at hcall
      rw [← hcall.2]
      have hi : i < s.readers.length := (List.getElem?_eq_some_iff.mp hr).1
      exact ⟨h.of_readers _, ⟨key, result, .grab⟩, List.getElem?_set_self hi, rfl, trivial⟩
  | append_singleton mid e ih =>
    intro outs s' hrun hnone
    rw [← List.cons_append] at hrun
    obtain ⟨outs₁, s₁, o, h₁, he, rfl⟩ := (Run.run_snoc_some _).mp hrun
    obtain ⟨hinv, r, hr, hkey, hok⟩ := ih (fun x hx => hp x (List.mem_append_left _ hx)) h₁
      (fun o' ho' => hnone o' (List.mem_append_left _ ho'))
    obtain ⟨hinv', hlater, -⟩ := hinv.step (hp e (by simp)) he
    have hmono : r.Ok (s.Held (.call i key result :: mid ++ [e]) key) s₁ :=
      hok.mono (fun tv htv => htv.snoc e)
    refine ⟨hinv', ?_⟩
    rw [← List.cons_append]
    cases e with
    | write key' v =>
      have hproper : key'.Short ∧ v.type ≠ .nil := hp (.write key' v) (by simp)
      obtain ⟨-, hw⟩ := hinv.write hproper.1 hproper.2 he
      exact ⟨r, by rw [hw.readers]; exact hr, hkey, hmono.later hw.later⟩
    | fill =>
      obtain ⟨-, hw⟩ := hinv.fill he
      exact ⟨r, by rw [hw.readers]; exact hr, hkey, hmono.later hw.later⟩
    | swap =>
      obtain ⟨-, hw⟩ := hinv.swap he
      exact ⟨r, by rw [hw.readers]; exact hr, hkey, hmono.later hw.later⟩
    | call j key' result' =>
      unfold SearchState.step at he
      obtain ⟨r', hr', he⟩ := Option.bind_eq_some_iff.mp he
      split at he
      · exact absurd he (by simp)
      next hidle =>
        simp only [Option.pure_def, Option.some.injEq, Prod.mk.injEq] at he
        obtain ⟨-, rfl⟩ := he
        -- the reader that is called is another one
        have hji : j ≠ i := by
          intro hji
          rw [hji, hr, Option.some.injEq] at hr'
          rw [← hr'] at hidle
          exact hidle rfl
        exact ⟨r, by rw [← hr]; exact List.getElem?_set_ne hji, hkey, hmono.later hlater⟩
    | read j =>
      unfold SearchState.step at he
      obtain ⟨r', hr', he⟩ := Option.bind_eq_some_iff.mp he
      obtain ⟨r'', hr'', he⟩ := Option.bind_eq_some_iff.mp he
      obtain ⟨⟨out, q⟩, hnext, he⟩ := Option.bind_eq_some_iff.mp he
      simp only [Option.pure_def, Option.some.injEq, Prod.mk.injEq] at he
      obtain ⟨ho, rfl⟩ := he
      by_cases hji : j = i
      · subst hji
        rw [hr, Option.some.injEq] at hr'
        subst hr'
        obtain rfl : r = r'' := Option.some.inj hr''
        have hnow : ∀ tv, Tells tv (s₁.holds r.key) →
            s.Held (.call j key result :: mid ++ [.read j]) key tv := by
          intro tv htv
          rw [hkey] at htv
          exact ⟨_, [.read j], outs₁, s₁, rfl, h₁, htv⟩
        have hi : j < s₁.readers.length := (List.getElem?_eq_some_iff.mp hr).1
        rcases hinv.next hmono hnow hnext with ⟨-, r₁, rfl, hkey₁, hok₁⟩ | ⟨tv, hout, -⟩
        · exact ⟨r₁, List.getElem?_set_self hi, hkey₁.trans hkey, hok₁.later hlater⟩
        · -- it would have returned
          rw [hout] at ho
          exact absurd ho.symm (hnone o (by simp) tv)
      · exact ⟨r, by rw [← hr]; exact List.getElem?_set_ne hji, hkey, hmono.later hlater⟩

/-- Every search that returns tells what the table held at some moment between
its call and its return: at that moment the current map held it, and it is what
the inserts up to then had put into the table. -/
theorem search_tells {a : Addr} {n i : Nat} {key : Key} {result : Value}
    {pre mid : List SearchStep} (hp : ∀ e ∈ pre ++ mid, e.Proper)
    {outs₀ outs : List (Option (Nat × LType × Word))} {s₁ s₂ : SearchState} {tv : LType × Word}
    (hpre : Run.run SearchState.step (SearchState.start a n) pre = some (outs₀, s₁))
    (hmid : Run.run SearchState.step s₁ (.call i key result :: mid ++ [.read i])
      = some (outs ++ [some (i, tv)], s₂))
    (hfirst : ∀ o ∈ outs, ∀ tv', o ≠ some (i, tv')) :
    ∃ before after os x, SearchStep.call i key result :: mid = before ++ after
      ∧ Run.run SearchState.step s₁ before = some (os, x)
      ∧ Tells tv (x.holds key) ∧ Tells tv (contents (pre ++ before) key) := by
  obtain ⟨hinv, -⟩ := SearchState.run_holds (fun e he => hp e (List.mem_append_left _ he)) hpre
  -- the last read is the one that returns
  obtain ⟨outs₁, s₃, o, h₁, hlast, hout⟩ := (Run.run_snoc_some _).mp hmid
  obtain ⟨rfl, ho⟩ := List.append_inj' hout rfl
  obtain rfl : some (i, tv) = o := (List.cons.inj ho).1
  obtain ⟨hinv₃, r, hr, hkey, hok⟩ :=
    hinv.searching (fun e he => hp e (List.mem_append_right _ he)) h₁ hfirst
  obtain ⟨r', hr', hlast⟩ := Option.bind_eq_some_iff.mp hlast
  obtain ⟨r'', hr'', hlast⟩ := Option.bind_eq_some_iff.mp hlast
  obtain ⟨⟨out, q⟩, hnext, hlast⟩ := Option.bind_eq_some_iff.mp hlast
  simp only [Option.pure_def, Option.some.injEq, Prod.mk.injEq] at hlast
  have hret : out.map (fun tv => (i, tv)) = some (i, tv) := hlast.1
  rw [hr, Option.some.injEq] at hr'
  subst hr'
  obtain rfl : r = r'' := Option.some.inj hr''
  -- what the map holds at that read is a moment of the search
  have hnow : ∀ tv, Tells tv (s₃.holds r.key) →
      s₁.Held (.call i key result :: mid) key tv := by
    intro tv htv
    rw [hkey] at htv
    exact ⟨_, [], outs, s₃, (List.append_nil _).symm, h₁, htv⟩
  rcases hinv₃.next hok hnow hnext with ⟨hnone, -⟩ | ⟨tv', hsome, hheld⟩
  · rw [hnone] at hret
    exact absurd hret (by simp)
  · have htv : tv' = tv := by
      rw [hsome] at hret
      simpa using hret
    subst htv
    obtain ⟨before, after, os, x, heq, hrun, htells⟩ := hheld
    refine ⟨before, after, os, x, heq, hrun, htells, ?_⟩
    -- up to that moment the map holds what was inserted
    have hproper : ∀ e ∈ pre ++ before, e.Proper := by
      intro e he
      rcases List.mem_append.mp he with he | he
      · exact hp e (List.mem_append_left _ he)
      · have hmem : e ∈ SearchStep.call i key result :: mid := by
          rw [heq]
          exact List.mem_append_left _ he
        rcases List.mem_cons.mp hmem with rfl | hmem
        · trivial
        · exact hp e (List.mem_append_right _ hmem)
    have hall := (Run.run_append_some _).mpr ⟨outs₀, s₁, os, hpre, hrun, rfl⟩
    rw [← (SearchState.run_holds hproper hall).2]
    exact htells

/-- A search, an overwrite in the middle of it, and a replaced map that makes it
start again. -/
theorem search_tells_retry :
    ∃ outs₀ s₁ outs s₂ before after os x,
      Run.run SearchState.step (SearchState.start 0 1) [.write (.num 1) ⟨0, .number, 5⟩]
        = some (outs₀, s₁)
      ∧ Run.run SearchState.step s₁ ([.call 0 (.num 1) .blank, .read 0, .read 0,
          .write (.num 1) ⟨0, .number, 6⟩, .read 0, .fill, .read 0, .swap, .read 0, .read 0,
          .read 0, .read 0, .read 0] ++ [.read 0])
        = some (outs ++ [some (0, .number, 6)], s₂)
      ∧ [SearchStep.call 0 (.num 1) .blank, .read 0, .read 0,
          .write (.num 1) ⟨0, .number, 6⟩, .read 0, .fill, .read 0, .swap, .read 0, .read 0,
          .read 0, .read 0, .read 0] = before ++ after
      ∧ Run.run SearchState.step s₁ before = some (os, x)
      ∧ Tells (.number, 6) (x.holds (.num 1))
      ∧ Tells (.number, 6) (contents ([.write (.num 1) ⟨0, .number, 5⟩] ++ before) (.num 1)) := by
  have hgo : (Run.run SearchState.step (SearchState.start 0 1)
      [.write (.num 1) ⟨0, .number, 5⟩]).bind (fun p =>
        (Run.run SearchState.step p.2 ([.call 0 (.num 1) .blank, .read 0, .read 0,
          .write (.num 1) ⟨0, .number, 6⟩, .read 0, .fill, .read 0, .swap, .read 0, .read 0,
          .read 0, .read 0, .read 0] ++ [.read 0])).map Prod.fst)
      = some (List.replicate 13 none ++ [some (0, .number, 6)]) := by decide
  obtain ⟨⟨outs₀, s₁⟩, hpre, hgo⟩ := Option.bind_eq_some_iff.mp hgo
  obtain ⟨⟨outs, s₂⟩, hmid, hgo⟩ := Option.map_eq_some_iff.mp hgo
  obtain rfl : outs = List.replicate 13 none ++ [some (0, .number, 6)] := hgo
  obtain ⟨before, after, os, x, h⟩ := search_tells (by decide) hpre hmid (by simp)
  exact ⟨outs₀, s₁, List.replicate 13 none, s₂, before, after, os, x, hpre, hmid, h⟩

/-! ## §7. The steps of one thread in a row. -/

/-- A walk that nobody disturbs is the loop of `_search`. -/
theorem SearchState.walk_alone {i : Nat} {key : Key} {result : Value} {a : Addr} {l : List Node}
    (hc : s.chainAt a key = some l) (hi : i < s.readers.length) (j : Nat) :
    ∃ k, Run.run SearchState.step
        { s with readers := s.readers.set i (some ⟨key, result, .walk a j⟩) }
        (List.replicate k (.read i))
      = some (List.replicate k none, { s with
          readers := s.readers.set i
            (some ⟨key, searchLoop key result (l.drop j), .release a⟩) }) := by
  -- one step of the reader, from any phase
  have hone : ∀ (r : Reader) (q : Reader), s.next r = some (none, some q) →
      SearchState.step { s with readers := s.readers.set i (some r) } (.read i)
        = some (none, { s with readers := s.readers.set i (some q) }) := by
    intro r q hq
    have hnext : SearchState.next { s with readers := s.readers.set i (some r) } r
        = some (none, some q) := hq
    unfold SearchState.step
    simp only [List.getElem?_set_self hi, Option.bind_eq_bind, Option.bind_some, hnext,
      List.set_set]
    rfl
  induction hlen : l.length - j generalizing j with
  | zero =>
    have hend : l[j]? = none := List.getElem?_eq_none (by omega)
    refine ⟨1, (Run.run_cons_some _).mpr ⟨none, _, [], hone _ _ ?_, rfl, rfl⟩⟩
    unfold SearchState.next
    simp only [hc, hend, Option.bind_eq_bind, Option.bind_some]
    rw [List.drop_eq_nil_of_le (by omega)]
    rfl
  | succ d ih =>
    have hj : j < l.length := by omega
    have hn : l[j]? = some l[j] := List.getElem?_eq_getElem hj
    have hdrop : l.drop j = l[j] :: l.drop (j + 1) := List.drop_eq_getElem_cons hj
    by_cases hin : isInHash key l[j] = true
    · -- the node answers: one step to see it, one to copy it
      refine ⟨2, (Run.run_cons_some _).mpr ⟨none, _, [none], hone _ ⟨key, result, .copy a j⟩ ?_,
        (Run.run_cons_some _).mpr ⟨none, _, [], hone _ _ ?_, rfl, rfl⟩, rfl⟩⟩
      · unfold SearchState.next
        simp only [hc, hn, hin, if_true, Option.bind_eq_bind, Option.bind_some]
        rfl
      · unfold SearchState.next
        simp only [hc, hn, Option.bind_eq_bind, Option.bind_some]
        rw [hdrop, searchLoop, if_pos hin]
        rfl
    · obtain ⟨k, hk⟩ := ih (j + 1) (by omega)
      refine ⟨k + 1, (Run.run_cons_some _).mpr
        ⟨none, _, List.replicate k none, hone _ ⟨key, result, .walk a (j + 1)⟩ ?_, ?_, rfl⟩⟩
      · unfold SearchState.next
        simp only [hc, hn, hin, if_false, Bool.false_eq_true, Option.bind_eq_bind,
          Option.bind_some]
        rfl
      · rw [hk, hdrop, searchLoop, if_neg hin]

/-- A table in memory, with readers beside it. -/
def SearchState.ofTable (w : World) (tb : Table) (rs : List (Option Reader)) : SearchState :=
  { maps := tb.maps, cur := tb.map, brk := w.brk, filled := none, readers := rs }

/-- `_insert_table` is an insert of the writer, or an insert and an expansion. -/
theorem World.Owns.insertTable_steps {w w' : World} {t : Addr} {tb : Table} {m : LMap}
    (h : w.Owns t tb m) (hm : m.Wf) {key : Key} {v : Value} (hv : v.type ≠ .nil) {type : LType}
    (hx : w.insertTable t key v = some (type, w')) (rs : List (Option Reader)) :
    ∃ steps tb' m' outs s', (steps = [.write key v] ∨ steps = [.write key v, .fill, .swap])
      ∧ w'.Owns t tb' m'
      ∧ Run.run SearchState.step (SearchState.ofTable w tb rs) steps = some (outs, s')
      ∧ s'.maps s'.cur = some m' ∧ s'.readers = rs := by
  obtain ⟨brk', hle, hr⟩ := hm.insertValue_eq key w.brk v
  obtain ⟨howns, -⟩ := h.withInserted
    (r := ⟨m.typeAt key, m.depth key, m.inserted w.brk key v, brk'⟩) (m.inserted_ref _ _) hle
  have hready := h.of_insertTable hm hv hx
  rw [h.insertTable_eq hr] at hx
  -- the writer's first step
  set s₁ : SearchState := { SearchState.ofTable w tb rs with
    maps := Function.update tb.maps tb.map (some (m.inserted w.brk key v)), brk := brk' } with hs₁
  have hwrite : (SearchState.ofTable w tb rs).step (.write key v) = some (none, s₁) := by
    have hmap : (SearchState.ofTable w tb rs).maps (SearchState.ofTable w tb rs).cur = some m :=
      h.map
    have hins : m.insertValue (SearchState.ofTable w tb rs).brk key v 0 = _ := hr
    unfold SearchState.step
    simp only [hmap, hins, Option.bind_eq_bind, Option.bind_some]
    rfl
  have hm₁ : s₁.maps s₁.cur = some (m.inserted w.brk key v) := Function.update_self ..
  by_cases hd : maxHashDepth ≤ m.depth key
  · obtain ⟨w₂, tb', nm, b, heq, hexp, howns', -, -⟩ :=
      howns.expandHash (hm.inserted key w.brk hv) (hready hd).room (hready hd).keys
    have hw : w₂ = w' := by
      have hx : (if maxHashDepth ≤ m.depth key then _ else _) = some (type, w') := hx
      rw [if_pos hd, hexp] at hx
      simp only [Option.map_some, Option.some.injEq, Prod.mk.injEq] at hx
      exact hx.2
    subst hw
    have hroom := ((hm.inserted key w.brk hv).toSized.canGrow_iff).mp (hready hd).room
    have heq : (m.inserted w.brk key v).doubled (brk' + 1)
        = some (nm, (m.inserted w.brk key v).bump, b) := heq
    have hfill : s₁.step .fill = some (none, { s₁ with
        maps := Function.update (Function.update s₁.maps s₁.cur
          (some (m.inserted w.brk key v).bump)) brk' (some nm),
        brk := b, filled := some brk' }) := by
      have hbrk : s₁.brk = brk' := rfl
      have hnone : s₁.filled.isSome = false := rfl
      unfold SearchState.step
      simp only [hnone, hm₁, hroom, hbrk, heq, if_true, if_false, Bool.false_eq_true,
        Option.bind_eq_bind, Option.bind_some]
      rfl
    refine ⟨[.write key v, .fill, .swap], tb', nm, [none, none, none], _, Or.inr rfl, howns',
      (Run.run_cons_some _).mpr ⟨none, s₁, [none, none], hwrite,
        (Run.run_cons_some _).mpr ⟨none, _, [none], hfill,
          (Run.run_cons_some _).mpr ⟨none, _, [], rfl, rfl, rfl⟩, rfl⟩, rfl⟩,
      Function.update_self .., rfl⟩
  · have hw : w.withInserted t tb ⟨m.typeAt key, m.depth key, m.inserted w.brk key v, brk'⟩ = w' := by
      have hx : (if maxHashDepth ≤ m.depth key then _ else _) = some (type, w') := hx
      rw [if_neg hd] at hx
      simp only [Option.some.injEq, Prod.mk.injEq] at hx
      exact hx.2
    subst hw
    exact ⟨[.write key v], _, _, [none], s₁, Or.inl rfl, howns,
      (Run.run_cons_some _).mpr ⟨none, s₁, [], hwrite, rfl, rfl⟩, hm₁, rfl⟩

end LightTable
