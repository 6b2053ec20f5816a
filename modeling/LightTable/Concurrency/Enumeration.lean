/-
  LightTable.Concurrency.Enumeration
  ──────────────────────────────────
  `keys` beside any number of setters.

  An enumeration walks the map it grabbed, also after setters have replaced
  that map.  The chains of a map only grow at their ends, and a map that was
  replaced no longer changes; so the records that are written are those of the
  pointers passed so far, some of them (`Walker.Ok`), and a key that the table
  held when `keys` was called is recorded, or still ahead.

  With the same facts no thread is ever stuck: whatever searches, enumerations
  and setters are under way, every step finds what it reads.
-/
import LightTable.Concurrency.Shared
import LightTable.Table.Growth

namespace LightTable

open ChainedHash
open scoped List

/-! ## §1. The records of a map. -/

variable {m m' : LMap} {key : Key}

/-- The records of the nodes along the `i`-th chain. -/
def LMap.recordsAt (m : LMap) (i : Nat) : List TableKey := (m.chainAt i).map Node.record

/-- The records of all nodes, in bucket order and chain order. -/
def LMap.records (m : LMap) : List TableKey := (List.range m.size.toNat).flatMap m.recordsAt

theorem Node.record_setWord (w : Word) (n : Node) : (n.setWord w).record = n.record := rfl

theorem flatMap_range_getD {A : Type} (l : List (List A)) :
    (List.range l.length).flatMap (fun i => (l[i]?).getD []) = l.flatten := by
  induction l with
  | nil => rfl
  | cons c l ih =>
    rw [List.length_cons, List.range_succ_eq_map, List.flatMap_cons, List.flatMap_map,
      List.flatten_cons]
    simp only [List.getElem?_cons_zero, List.getElem?_cons_succ, Option.getD_some]
    rw [ih]

theorem LMap.Sized.records_eq (hm : m.Sized) : m.records = m.entries.map Node.record := by
  have hflat := flatMap_range_getD m.data
  unfold LMap.records LMap.entries LMap.recordsAt LMap.chainAt
  rw [← hm.length, ← hflat, List.map_flatMap]

/-- An insert leaves the records of a chain in their places, and may add one. -/
theorem LMap.Sized.recordsAt_inserted (hm : m.Sized) (brk : Addr) (key : Key) (v : Value) (i : Nat) :
    m.recordsAt i <+: (m.inserted brk key v).recordsAt i := by
  obtain ⟨c, hc⟩ := hm.chain key
  have hset : ∀ c' : List Node, c.map Node.record <+: c'.map Node.record →
      m.recordsAt i <+: (m.setChain key c').recordsAt i := by
    intro c' hpre
    unfold LMap.recordsAt
    rw [hm.chainAt_setChain]
    by_cases hi : bucket m.size key = i
    · rw [if_pos hi, ← hi, LMap.chainAt_eq hc]
      exact hpre
    · exact prefix_of_eq (by rw [if_neg hi])
  cases hf : m.find key with
  | some n =>
    rw [LMap.inserted_found hf, LMap.overwrite_eq hc]
    apply hset
    exact prefix_of_eq (map_modifyFirst (g := Node.record) (Node.record_setWord v.v) _).symm
  | none =>
    rw [LMap.inserted_absent hf, LMap.link_eq hc]
    apply hset (c ++ [freshNode brk key v])
    rw [List.map_append]
    exact List.prefix_append _ _

theorem LMap.bump_recordsAt (m : LMap) (i : Nat) : m.bump.recordsAt i = m.recordsAt i := by
  unfold LMap.recordsAt LMap.chainAt LMap.bump
  rw [List.getElem?_map]
  cases m.data[i]? with
  | none => rfl
  | some c =>
    show (c.map Node.bump).map Node.record = c.map Node.record
    rw [List.map_map]
    rfl

/-! ## §2. Maps that were current once. -/

/-- `c'` holds what `c` held, with the same types. -/
def KeptTypes (c c' : Key → Option (LType × Word)) : Prop :=
  ∀ key ty w, c key = some (ty, w) → ∃ w', c' key = some (ty, w')

/-- The nodes of a map are one for each of some of the keys that `c` holds,
with the types there. -/
structure LMap.Listed (m : LMap) (c : Key → Option (LType × Word)) : Prop where
  sized : m.Sized
  node : ∀ n ∈ m.entries, n.Wf
  nodup : (m.entries.map Node.storedKey).Nodup
  held : ∀ n ∈ m.entries, ∃ key w, n.storedKey = some key ∧ c key = some (n.v.type, w)

theorem LMap.Listed.mono {c c' : Key → Option (LType × Word)} (h : m.Listed c)
    (hk : KeptTypes c c') : m.Listed c' := by
  refine ⟨h.sized, h.node, h.nodup, ?_⟩
  intro n hn
  obtain ⟨key, w, hkey, hc⟩ := h.held n hn
  obtain ⟨w', hw'⟩ := hk key n.v.type w hc
  exact ⟨key, w', hkey, hw'⟩

theorem LMap.Inv.listed (hm : m.Inv) : m.Listed m.view where
  sized := hm.toSized
  node := hm.node
  nodup := by
    have hall : m.entries.map Node.storedKey
        = (m.entries.filterMap Node.storedKey).map some := by
      have hsome := hm.storedKey_ne_none
      generalize m.entries = l at hsome
      induction l with
      | nil => rfl
      | cons n l ih =>
        obtain ⟨key, hkey⟩ := Option.ne_none_iff_exists'.mp (hsome n (by simp))
        rw [List.map_cons, List.filterMap_cons_some hkey, List.map_cons, hkey,
          ih (fun x hx => hsome x (List.mem_cons_of_mem n hx))]
    rw [hall]
    exact hm.nodup.map (fun _ _ h => Option.some.inj h)
  held := by
    intro n hn
    obtain ⟨key, hkey, hfind⟩ := hm.find_node hn
    refine ⟨key, n.v.v, hkey, ?_⟩
    unfold LMap.view
    rw [hfind]
    rfl

theorem LMap.Listed.bump {c : Key → Option (LType × Word)} (h : m.Listed c) : m.bump.Listed c where
  sized := ⟨h.sized.pos, h.sized.lt, by
    show (m.data.map _).length = _
    rw [List.length_map]
    exact h.sized.length⟩
  node := by
    intro n hn
    rw [LMap.bump_entries] at hn
    obtain ⟨x, hx, rfl⟩ := List.mem_map.mp hn
    exact (h.node x hx).withValue _
  nodup := by
    rw [LMap.bump_entries, List.map_map]
    exact h.nodup
  held := by
    intro n hn
    rw [LMap.bump_entries] at hn
    obtain ⟨x, hx, rfl⟩ := List.mem_map.mp hn
    exact h.held x hx

/-- Every map object that was current once is still there, with some of the
keys that the table holds now. -/
def SearchState.Archived (s : SearchState) : Prop :=
  ∀ a m, s.maps a = some m → a < s.brk ∧ (s.filled ≠ some a → m.Listed s.holds)

/-- A map that was current once keeps the records of its chains in their
places. -/
def SearchState.Grew (s s' : SearchState) : Prop :=
  ∀ a m, s.maps a = some m → s.filled ≠ some a → s'.filled ≠ some a
    ∧ ∃ m', s'.maps a = some m' ∧ m'.size = m.size ∧ ∀ i, m.recordsAt i <+: m'.recordsAt i

variable {s s' : SearchState}

theorem SearchState.Grew.of_maps (hf : s'.filled = s.filled) (hm : s'.maps = s.maps) :
    s.Grew s' := by
  intro a m ha hfa
  refine ⟨by rw [hf]; exact hfa, m, by rw [hm]; exact ha, rfl, fun _ => List.prefix_rfl⟩

/-- An insert keeps types. -/
theorem SearchStep.keptTypes (e : SearchStep) (c : Key → Option (LType × Word)) :
    KeptTypes c (e.after c) := by
  intro key ty w hc
  cases e with
  | write key' v =>
    by_cases hk : key = key'
    · subst hk
      refine ⟨v.v, ?_⟩
      show Function.update c key _ key = _
      rw [Function.update_self, hc]
      rfl
    · exact ⟨w, by rw [← hc]; exact Function.update_of_ne hk _ _⟩
  | call i key' r => exact ⟨w, hc⟩
  | read i => exact ⟨w, hc⟩
  | fill => exact ⟨w, hc⟩
  | swap => exact ⟨w, hc⟩

/-- What a step leaves of the maps that were current once. -/
structure SearchState.Advanced (s s' : SearchState) : Prop where
  archived : s'.Archived
  grew : s.Grew s'
  kept : KeptTypes s.holds s'.holds

theorem SearchState.holds_eq (hm : s.maps s.cur = some m) : s.holds = m.view := by
  funext key
  unfold SearchState.holds
  rw [hm]
  rfl

theorem SearchState.listed_cur (hm : s.maps s.cur = some m) (hinv : m.Inv) :
    m.Listed s.holds := by
  rw [SearchState.holds_eq hm]
  exact hinv.listed

/-- The map that changes is the current one, and grows. -/
theorem SearchState.Archived.update (h : s.Archived) (hinv : s.Inv)
    (hcur : s.maps s.cur = some m) (hkept : KeptTypes s.holds s'.holds)
    (hmaps : s'.maps = Function.update s.maps s.cur (some m')) (hfilled : s'.filled = s.filled)
    (hbrk : s.brk ≤ s'.brk) (hlisted : m'.Listed s'.holds) (hsize : m'.size = m.size)
    (hgrow : ∀ i, m.recordsAt i <+: m'.recordsAt i) : s.Advanced s' where
  archived := by
    intro a lm ha
    rw [hmaps, Function.update_apply] at ha
    by_cases hac : a = s.cur
    · rw [if_pos hac, Option.some.injEq] at ha
      rw [hac, ← ha]
      exact ⟨Nat.lt_of_lt_of_le hinv.cur_lt hbrk, fun _ => hlisted⟩
    · rw [if_neg hac] at ha
      obtain ⟨hlt, hl⟩ := h a lm ha
      refine ⟨Nat.lt_of_lt_of_le hlt hbrk, ?_⟩
      intro hf
      rw [hfilled] at hf
      exact (hl hf).mono hkept
  grew := by
    intro a lm ha hf
    refine ⟨by rw [hfilled]; exact hf, ?_⟩
    rw [hmaps]
    by_cases hac : a = s.cur
    · rw [hac, hcur, Option.some.injEq] at ha
      rw [hac, Function.update_self, ← ha]
      exact ⟨m', rfl, hsize, hgrow⟩
    · rw [Function.update_of_ne hac]
      exact ⟨lm, ha, rfl, fun _ => List.prefix_rfl⟩
  kept := hkept

/-- One step of the one-writer machine. -/
theorem SearchState.Archived.step (h : s.Archived) (hinv : s.Inv) {e : SearchStep}
    (hp : e.Proper) {out : Option (Nat × LType × Word)} (hx : s.step e = some (out, s')) :
    s.Advanced s' := by
  obtain ⟨hinv', hlater, hholds⟩ := hinv.step hp hx
  have hkept : KeptTypes s.holds s'.holds := by
    rw [hholds]
    exact e.keptTypes s.holds
  have hreader : (∃ i key result, e = .call i key result) ∨ (∃ i, e = .read i) →
      s.Advanced s' := by
    intro he
    obtain ⟨hf, hmaps, hcur, hbrk⟩ := SearchState.reader_filled he hx
    refine ⟨?_, .of_maps hf hmaps, hkept⟩
    intro a lm ha
    rw [hmaps] at ha
    obtain ⟨hlt, hl⟩ := h a lm ha
    exact ⟨by rw [hbrk]; exact hlt, fun hfa => (hl (by rw [← hf]; exact hfa)).mono hkept⟩
  cases e with
  | call i key result => exact hreader (Or.inl ⟨i, key, result, rfl⟩)
  | read i => exact hreader (Or.inr ⟨i, rfl⟩)
  | write key v =>
    obtain ⟨-, hf, -⟩ := SearchState.write_filled hx
    obtain ⟨m, hm, hminv⟩ := hinv.plain hf
    obtain ⟨brk', hle, hins⟩ := hminv.toWf.insertValue_eq key s.brk v
    simp only [SearchState.step, hf, hm, hins, Option.isSome_none, Bool.false_eq_true, if_false,
      Option.bind_eq_bind, Option.bind_some, Option.pure_def, Option.some.injEq,
      Prod.mk.injEq] at hx
    obtain ⟨-, rfl⟩ := hx
    have hm' : Function.update s.maps s.cur (some (m.inserted s.brk key v)) s.cur
        = some (m.inserted s.brk key v) := Function.update_self ..
    exact h.update hinv hm hkept rfl hf.symm hle
      (SearchState.listed_cur hm' (hminv.inserted hp.1.fits s.brk hp.2)) (by simp)
      (hminv.toSized.recordsAt_inserted s.brk key v)
  | fill =>
    obtain ⟨-, hf'⟩ := SearchState.fill_filled hx
    obtain ⟨a', ha'⟩ := Option.isSome_iff_exists.mp hf'
    simp only [SearchState.step] at hx
    split at hx
    · exact absurd hx (by simp)
    next hf =>
      have hf : s.filled = none := by simpa using hf
      obtain ⟨m, hm, hminv⟩ := hinv.plain hf
      rw [hm] at hx
      have hx : (if asSize m.newSize < 1152921504606846976 then
          (m.doubled (s.brk + 1)).bind (fun p => some (none, { s with
            maps := Function.update (Function.update s.maps s.cur (some p.2.1)) s.brk (some p.1),
            brk := p.2.2, filled := some s.brk }))
          else none) = some (out, s') := hx
      split at hx
      next hroom =>
        obtain ⟨nm, brk', heq, hle, -⟩ :=
          hminv.doubled_spec (hminv.toSized.canGrow_iff.mpr hroom) (s.brk + 1)
        rw [heq, Option.bind_some, Option.some.injEq, Prod.mk.injEq] at hx
        obtain ⟨-, rfl⟩ := hx
        have hlt : s.brk < brk' := hle
        have hbump : m.bump.Listed s.holds := by
          rw [SearchState.holds_eq hm]
          exact hminv.listed.bump
        refine ⟨?_, ?_, hkept⟩
        · intro a lm ha
          by_cases hab : a = s.brk
          · -- the private map is not looked at
            subst hab
            exact ⟨hlt, fun hf => absurd rfl hf⟩
          · have ha : Function.update (Function.update s.maps s.cur (some m.bump)) s.brk
              (some nm) a = some lm := ha
            rw [Function.update_of_ne hab, Function.update_apply] at ha
            by_cases hac : a = s.cur
            · rw [if_pos hac, Option.some.injEq] at ha
              rw [hac, ← ha]
              exact ⟨Nat.lt_trans hinv.cur_lt hlt, fun _ => hbump.mono hkept⟩
            · rw [if_neg hac] at ha
              obtain ⟨hlta, hl⟩ := h a lm ha
              exact ⟨Nat.lt_trans hlta hlt, fun _ => (hl (by rw [hf]; simp)).mono hkept⟩
        · intro a lm ha hfa
          have hab : a ≠ s.brk := Nat.ne_of_lt (h a lm ha).1
          refine ⟨fun heq => hab (Option.some.inj heq).symm, ?_⟩
          show ∃ m', Function.update (Function.update s.maps s.cur (some m.bump)) s.brk (some nm) a
            = some m' ∧ _
          rw [Function.update_of_ne hab]
          by_cases hac : a = s.cur
          · rw [hac, hm, Option.some.injEq] at ha
            rw [hac, Function.update_self, ← ha]
            refine ⟨m.bump, rfl, rfl, ?_⟩
            intro i
            exact prefix_of_eq (LMap.bump_recordsAt m i).symm
          · rw [Function.update_of_ne hac]
            exact ⟨lm, ha, rfl, fun _ => List.prefix_rfl⟩
      next hroom => exact absurd hx (by simp)
  | swap =>
    unfold SearchState.step at hx
    obtain ⟨a, ha, hx⟩ := Option.bind_eq_some_iff.mp hx
    simp only [Option.pure_def, Option.some.injEq, Prod.mk.injEq] at hx
    obtain ⟨-, rfl⟩ := hx
    obtain ⟨hne, -, m, m', hm, hminv, hm', hminv', -⟩ := hinv.full a ha
    refine ⟨?_, ?_, hkept⟩
    · intro b lm hb
      have hb : s.maps b = some lm := hb
      obtain ⟨hlt, hl⟩ := h b lm hb
      refine ⟨hlt, fun _ => ?_⟩
      by_cases hba : b = a
      · -- the private map is the current one now
        rw [hba, hm', Option.some.injEq] at hb
        rw [← hb]
        exact SearchState.listed_cur (s := { s with cur := a, filled := none }) hm' hminv'
      · exact (hl (by rw [ha]; exact fun heq => hba (Option.some.inj heq).symm)).mono hkept
    · intro b lm hb _
      exact ⟨by simp, lm, hb, rfl, fun _ => List.prefix_rfl⟩

theorem SearchState.start_archived (a : Addr) (n : Nat) : (SearchState.start a n).Archived := by
  intro b m hb
  have hb : Function.update (fun _ => none) a (some (LMap.new 29)) b = some m := hb
  rw [Function.update_apply] at hb
  by_cases hba : b = a
  · rw [if_pos hba, Option.some.injEq] at hb
    rw [hba, ← hb]
    exact ⟨Nat.lt_succ_self a, fun _ =>
      SearchState.listed_cur (SearchState.start_map a n) LMap.new_inv⟩
  · rw [if_neg hba] at hb
    exact absurd hb (by simp)

/-! ## §3. A walk. -/

/-- The records of the pointers before the `j`-th of the `i`-th chain. -/
def LMap.passed (m : LMap) (i j : Nat) : List TableKey :=
  (List.range i).flatMap m.recordsAt ++ (m.recordsAt i).take j

/-- A record of the key is at the `j`-th pointer of the `i`-th chain, or further
on. -/
def LMap.Ahead (m : LMap) (i j : Nat) (key : Key) : Prop :=
  ∃ k l r, (m.recordsAt k)[l]? = some r ∧ r.toKey = some key ∧ (i < k ∨ i = k ∧ j ≤ l)

/-- One of the records names the key. -/
def Recorded (rs : List TableKey) (key : Key) : Prop := ∃ r ∈ rs, r.toKey = some key

/-- Where an enumeration is, and that every key with `C` is recorded or still
ahead. -/
def Walker.Ok (C : Key → Prop) (s : SearchState) (r : Walker) : Prop :=
  r.count ≤ r.limit ∧ r.count ≤ recordRoom r.vv ∧
  match r.phase with
  | .grab => r.records = [] ∧ ∀ key, C key → (s.holds key).isSome
  | .walk a i j => ∃ m, s.maps a = some m ∧ s.filled ≠ some a ∧ r.records <+ m.passed i j
      ∧ i ≤ m.size.toNat ∧ j ≤ (m.recordsAt i).length
      ∧ ∀ key, C key → Recorded r.records key ∨ m.Ahead i j key
  | .release a => ∃ m, s.maps a = some m ∧ s.filled ≠ some a ∧ r.records <+ m.records
      ∧ (r.count = r.limit ∨ ∀ key, C key → Recorded r.records key)

theorem Walker.length_records {r : Walker} (h : r.count ≤ recordRoom r.vv) :
    r.records.length = r.count := by
  unfold Walker.records recordRoom at *
  rw [List.length_take]
  omega

theorem flatMap_sublist {A B : Type} {f g : A → List B} (h : ∀ a, f a <+ g a) :
    ∀ l : List A, l.flatMap f <+ l.flatMap g
  | [] => List.Sublist.refl []
  | a :: l => by
      rw [List.flatMap_cons, List.flatMap_cons]
      exact (h a).append (flatMap_sublist h l)

/-- Growing leaves what was passed, and what is ahead. -/
theorem LMap.passed_sublist (hgrow : ∀ i, m.recordsAt i <+: m'.recordsAt i) (i j : Nat) :
    m.passed i j <+ m'.passed i j := by
  unfold LMap.passed
  refine (flatMap_sublist (fun k => (hgrow k).sublist) _).append ?_
  obtain ⟨t, ht⟩ := hgrow i
  rw [← ht, List.take_append]
  exact List.sublist_append_left _ _

theorem LMap.Ahead.grown (hgrow : ∀ i, m.recordsAt i <+: m'.recordsAt i) {i j : Nat}
    (h : m.Ahead i j key) : m'.Ahead i j key := by
  obtain ⟨k, l, r, hr, hkey, hpos⟩ := h
  obtain ⟨t, ht⟩ := hgrow k
  refine ⟨k, l, r, ?_, hkey, hpos⟩
  rw [← ht, List.getElem?_append_left (List.getElem?_eq_some_iff.mp hr).1]
  exact hr

theorem Walker.Ok.later {C : Key → Prop} {r : Walker} (h : r.Ok C s) (hs : s.Advanced s') :
    r.Ok C s' := by
  obtain ⟨limit, vv, count, phase⟩ := r
  obtain ⟨hlen, hroom, h⟩ := h
  refine ⟨hlen, hroom, ?_⟩
  cases phase with
  | grab =>
    refine ⟨h.1, ?_⟩
    intro key hC
    obtain ⟨⟨ty, w⟩, hk⟩ := Option.isSome_iff_exists.mp (h.2 key hC)
    obtain ⟨w', hk'⟩ := hs.kept key ty w hk
    rw [hk']
    rfl
  | walk a i j =>
    obtain ⟨m, ha, hf, hsub, hi, hj, hC⟩ := h
    obtain ⟨hf', m', ha', hsize, hgrow⟩ := hs.grew a m ha hf
    refine ⟨m', ha', hf', hsub.trans (LMap.passed_sublist hgrow i j), by rw [hsize]; exact hi,
      Nat.le_trans hj (hgrow i).length_le, ?_⟩
    intro key hk
    rcases hC key hk with hrec | hahead
    · exact Or.inl hrec
    · exact Or.inr (hahead.grown hgrow)
  | release a =>
    obtain ⟨m, ha, hf, hsub, hC⟩ := h
    obtain ⟨hf', m', ha', hsize, hgrow⟩ := hs.grew a m ha hf
    refine ⟨m', ha', hf', hsub.trans ?_, hC⟩
    unfold LMap.records
    rw [hsize]
    exact flatMap_sublist (fun k => (hgrow k).sublist) _

theorem LMap.Sized.recordsAt_nil (hm : m.Sized) {k : Nat} (hk : m.size.toNat ≤ k) :
    m.recordsAt k = [] := by
  unfold LMap.recordsAt LMap.chainAt
  rw [List.getElem?_eq_none (by rw [hm.length]; exact hk)]
  rfl

/-- Nothing is ahead of the last chain. -/
theorem LMap.Sized.not_ahead (hm : m.Sized) {i j : Nat} (hi : m.size.toNat ≤ i) :
    ¬ m.Ahead i j key := by
  rintro ⟨k, l, r, hr, -, hpos⟩
  rw [hm.recordsAt_nil (by omega)] at hr
  exact absurd hr (by simp)

/-- All that was passed are records of the map. -/
theorem LMap.passed_records {i j : Nat} (hi : i ≤ m.size.toNat)
    (hj : i = m.size.toNat → m.recordsAt i = []) : m.passed i j <+ m.records := by
  unfold LMap.passed LMap.records
  rcases Nat.lt_or_ge i m.size.toNat with hlt | hge
  · obtain ⟨d, hd⟩ := Nat.exists_eq_add_of_lt hlt
    have hrange : List.range m.size.toNat
        = List.range i ++ i :: (List.range d).map (fun x => i + 1 + x) := by
      have hsum : m.size.toNat = (i + 1) + d := by omega
      rw [hsum, List.range_add, List.range_succ, List.append_assoc]
      rfl
    rw [hrange, List.flatMap_append, List.flatMap_cons]
    exact (List.Sublist.refl _).append ((List.take_sublist _ _).trans (List.sublist_append_left _ _))
  · have heq : i = m.size.toNat := Nat.le_antisymm hi hge
    rw [hj heq, List.take_nil, List.append_nil, heq]

/-- The whole of a chain is passed. -/
theorem LMap.passed_next {i j : Nat} (hj : (m.recordsAt i).length ≤ j) :
    m.passed i j = m.passed (i + 1) 0 := by
  unfold LMap.passed
  rw [List.take_of_length_le hj, List.take_zero, List.append_nil, List.range_succ,
    List.flatMap_append, List.flatMap_singleton]

theorem LMap.passed_snoc {i j : Nat} {r : TableKey} (hr : (m.recordsAt i)[j]? = some r) :
    m.passed i (j + 1) = m.passed i j ++ [r] := by
  unfold LMap.passed
  rw [List.take_add_one, hr, List.append_assoc]
  rfl

/-- A key is not ahead any more when its record is the one at hand. -/
theorem LMap.Ahead.next {i j : Nat} {r : TableKey} (h : m.Ahead i j key)
    (hr : (m.recordsAt i)[j]? = some r) : r.toKey = some key ∨ m.Ahead i (j + 1) key := by
  obtain ⟨k, l, r', hr', hkey, hpos⟩ := h
  rcases hpos with hlt | ⟨rfl, hle⟩
  · exact Or.inr ⟨k, l, r', hr', hkey, Or.inl hlt⟩
  · rcases Nat.lt_or_ge j l with hlt | hge
    · exact Or.inr ⟨i, l, r', hr', hkey, Or.inr ⟨rfl, hlt⟩⟩
    · obtain rfl : j = l := Nat.le_antisymm hle hge
      rw [hr, Option.some.injEq] at hr'
      rw [← hr'] at hkey
      exact Or.inl hkey

theorem LMap.Ahead.chain {i j : Nat} (h : m.Ahead i j key) (hj : (m.recordsAt i).length ≤ j) :
    m.Ahead (i + 1) 0 key := by
  obtain ⟨k, l, r, hr, hkey, hpos⟩ := h
  rcases hpos with hlt | ⟨rfl, hle⟩
  · refine ⟨k, l, r, hr, hkey, ?_⟩
    rcases Nat.lt_or_ge (i + 1) k with hlt' | hge
    · exact Or.inl hlt'
    · exact Or.inr ⟨by omega, Nat.zero_le l⟩
  · have hlt := (List.getElem?_eq_some_iff.mp hr).1
    omega

/-- A key of the map is ahead of the first pointer. -/
theorem LMap.Listed.ahead {c : Key → Option (LType × Word)} (h : m.Listed c) {n : Node}
    (hn : n ∈ m.entries) (hkey : n.storedKey = some key) : m.Ahead 0 0 key := by
  obtain ⟨chain, hchain, hmem⟩ := List.mem_flatten.mp hn
  obtain ⟨k, hk⟩ := List.getElem?_of_mem hchain
  obtain ⟨l, hl⟩ := List.getElem?_of_mem hmem
  refine ⟨k, l, n.record, ?_, by rw [(h.node n hn).toKey_record, hkey], ?_⟩
  · unfold LMap.recordsAt LMap.chainAt
    rw [hk, List.getElem?_map]
    show chain[l]?.map Node.record = _
    rw [hl]
    rfl
  · rcases Nat.eq_zero_or_pos k with rfl | hpos
    · exact Or.inr ⟨rfl, Nat.zero_le l⟩
    · exact Or.inl hpos

/-- The current map is listed, and has a node for every key that is held. -/
theorem SearchState.Archived.current (h : s.Archived) (hinv : s.Inv) :
    ∃ m, s.maps s.cur = some m ∧ s.filled ≠ some s.cur ∧ m.Listed s.holds
      ∧ ∀ key, (s.holds key).isSome → m.Ahead 0 0 key := by
  obtain ⟨m, hm, hsized, -⟩ := hinv.cur_map
  have hf : s.filled ≠ some s.cur := fun hf => (hinv.full s.cur hf).1 rfl
  have hlisted := (h s.cur m hm).2 hf
  refine ⟨m, hm, hf, hlisted, ?_⟩
  intro key hk
  obtain ⟨c, hc⟩ := hsized.chain key
  rw [SearchState.holds_eq hm] at hk
  unfold LMap.view at hk
  rw [LMap.find_eq hc] at hk
  obtain ⟨tv, htv⟩ := Option.isSome_iff_exists.mp hk
  obtain ⟨n, hn, -⟩ := Option.map_eq_some_iff.mp htv
  obtain ⟨hmem, hkey⟩ := lookup_mem Node.storedKey hn
  exact hlisted.ahead (LMap.mem_entries hc hmem) hkey

/-- A step of an enumeration: it goes on in order, or returns what it wrote,
or finds no room for a record. -/
theorem SearchState.Archived.advance {x : SharedState} {C : Key → Prop} {r : Walker}
    (h : x.base.Archived) (hinv : x.base.Inv) (hr : r.Ok C x.base) :
    (∃ q, x.advance r = some (none, some q) ∧ q.limit = r.limit
        ∧ recordRoom q.vv = recordRoom r.vv ∧ q.Ok C x.base)
      ∨ (x.advance r = some (some r.records, none) ∧ ∃ a, r.phase = .release a)
      ∨ (x.advance r = none ∧ recordRoom r.vv < r.limit) := by
  obtain ⟨limit, vv, count, phase⟩ := r
  obtain ⟨hlen, hroom, hr⟩ := hr
  cases phase with
  | grab =>
    obtain ⟨hnil, hC⟩ := hr
    obtain ⟨m, hm, hf, -, hahead⟩ := h.current hinv
    refine Or.inl ⟨_, rfl, rfl, rfl, hlen, hroom, m, hm, hf, ?_, Nat.zero_le _, Nat.zero_le _, ?_⟩
    · show Walker.records ⟨limit, vv, count, .grab⟩ <+ _
      rw [hnil]
      exact List.nil_sublist _
    · exact fun key hk => Or.inr (hahead key (hC key hk))
  | release a => exact Or.inr (Or.inl ⟨rfl, a, rfl⟩)
  | walk a i j =>
    obtain ⟨m, hm, hf, hsub, hi, hj, hC⟩ := hr
    have hlisted := (h a m hm).2 hf
    have hsized := hlisted.sized
    by_cases hend : i < m.size.toNat
    · obtain ⟨chain, hc⟩ : ∃ chain, m.data[i]? = some chain :=
        ⟨_, List.getElem?_eq_getElem (by rw [hsized.length]; exact hend)⟩
      have hrecords : m.recordsAt i = chain.map Node.record := by
        unfold LMap.recordsAt LMap.chainAt
        rw [hc]
        rfl
      cases hn : chain[j]? with
      | none =>
        -- past the end of a chain
        have hshort : (m.recordsAt i).length ≤ j := by
          rw [hrecords, List.length_map]
          exact List.getElem?_eq_none_iff.mp hn
        refine Or.inl ⟨⟨limit, vv, count, .walk a (i + 1) 0⟩, ?_, rfl, rfl, hlen, hroom, m, hm, hf,
          ?_, hend, Nat.zero_le _, ?_⟩
        · unfold SharedState.advance
          simp only [hm, hc, hn, hend, if_true, Option.bind_eq_bind, Option.bind_some,
            Option.pure_def]
        · rw [← LMap.passed_next hshort]
          exact hsub
        · intro key hk
          rcases hC key hk with hrec | hahead
          · exact Or.inl hrec
          · exact Or.inr (hahead.chain hshort)
      | some n =>
        have hrec : (m.recordsAt i)[j]? = some n.record := by
          rw [hrecords, List.getElem?_map, hn]
          rfl
        by_cases hfull : limit ≤ count
        · refine Or.inl ⟨⟨limit, vv, count, .release a⟩, ?_, rfl, rfl, hlen, hroom, m, hm, hf, ?_,
            Or.inl (Nat.le_antisymm hlen hfull)⟩
          · unfold SharedState.advance
            simp only [hm, hc, hn, hend, hfull, if_true, Option.bind_eq_bind, Option.bind_some,
              Option.pure_def]
          · exact hsub.trans (LMap.passed_records hi (fun heq => absurd heq (by omega)))
        · have hwrite := writeRecord_next hroom n.record
          have hadvance : x.advance ⟨limit, vv, count, .walk a i j⟩
              = (writeRecord vv (asInt count) n.record).map (fun vv =>
                  (none, some ⟨limit, vv, count + 1, .walk a i (j + 1)⟩)) := by
            unfold SharedState.advance
            simp only [hm, hc, hn, hend, hfull, if_true, if_false, Option.bind_eq_bind,
              Option.bind_some, Option.pure_def, Option.map_eq_bind]
            rfl
          rw [hadvance, hwrite]
          by_cases hlt : count < recordRoom vv
          · have hrecords' : Walker.records ⟨limit, vv.set count n.record, count + 1, .walk a i (j + 1)⟩
                = Walker.records ⟨limit, vv, count, .walk a i j⟩ ++ [n.record] :=
              take_set_succ (Nat.lt_of_lt_of_le hlt (Nat.min_le_left _ _)) n.record
            refine Or.inl ⟨⟨limit, vv.set count n.record, count + 1, .walk a i (j + 1)⟩, ?_, rfl,
              recordRoom_set vv count n.record, Nat.lt_of_not_le hfull, ?_, m, hm, hf, ?_, hi,
              (List.getElem?_eq_some_iff.mp hrec).1, ?_⟩
            · rw [if_pos hlt]
              rfl
            · rw [recordRoom_set]
              exact hlt
            · rw [hrecords', LMap.passed_snoc hrec]
              exact hsub.append (List.Sublist.refl _)
            · intro key hk
              rw [hrecords']
              rcases hC key hk with ⟨r, hr, hkey⟩ | hahead
              · exact Or.inl ⟨r, List.mem_append_left _ hr, hkey⟩
              · rcases hahead.next hrec with hkey | hahead
                · exact Or.inl ⟨n.record, by simp, hkey⟩
                · exact Or.inr hahead
          · refine Or.inr (Or.inr ⟨by rw [if_neg hlt]; rfl, ?_⟩)
            show recordRoom vv < limit
            omega
    · -- past the last bucket
      have hge : m.size.toNat ≤ i := Nat.le_of_not_lt hend
      refine Or.inl ⟨⟨limit, vv, count, .release a⟩, ?_, rfl, rfl, hlen, hroom, m, hm, hf, ?_,
        Or.inr ?_⟩
      · unfold SharedState.advance
        simp only [hm, hend, if_false, Option.bind_eq_bind, Option.bind_some, Option.pure_def]
      · exact hsub.trans (LMap.passed_records hi (fun _ => hsized.recordsAt_nil hge))
      · intro key hk
        rcases hC key hk with hrec | hahead
        · exact hrec
        · exact absurd hahead (hsized.not_ahead hge)

/-! ## §4. What a call of keys returns. -/

theorem SearchState.Advanced.refl (h : s.Archived) : s.Advanced s :=
  ⟨h, .of_maps rfl rfl, fun _ _ w hc => ⟨w, hc⟩⟩

theorem SearchState.Advanced.trans {s'' : SearchState} (h : s.Advanced s') (h' : s'.Advanced s'') :
    s.Advanced s'' := by
  refine ⟨h'.archived, ?_, ?_⟩
  · intro a m ha hf
    obtain ⟨hf', m', ha', hsize, hgrow⟩ := h.grew a m ha hf
    obtain ⟨hf'', m'', ha'', hsize', hgrow'⟩ := h'.grew a m' ha' hf'
    exact ⟨hf'', m'', ha'', hsize'.trans hsize, fun i => (hgrow i).trans (hgrow' i)⟩
  · intro key ty w hc
    obtain ⟨w', hc'⟩ := h.kept key ty w hc
    exact h'.kept key ty w' hc'

theorem SearchState.Archived.run {es : List SearchStep} :
    ∀ {s s' : SearchState} {os : List (Option (Nat × LType × Word))}, s.Archived → s.Inv →
      Run.Along SearchState.step (fun _ e => e.Proper) s es →
      Run.run SearchState.step s es = some (os, s') → s.Advanced s' := by
  induction es with
  | nil =>
    intro s s' os h _ _ hrun
    simp only [Run.run_nil, Option.some.injEq, Prod.mk.injEq] at hrun
    rw [← hrun.2]
    exact .refl h
  | cons e es ih =>
    intro s s' os h hinv hp hrun
    obtain ⟨o, s₁, os', he, hrun, -⟩ := (Run.run_cons_some _).mp hrun
    have h₁ := h.step hinv hp.1 he
    exact h₁.trans (ih h₁.archived (hinv.step hp.1 he).1 (hp.2 o s₁ he) hrun)

variable {x x' : SharedState} {i : Nat}

/-- What a step of any thread leaves of the maps. -/
theorem SharedState.Inv.advanced (h : x.Inv) (ha : x.base.Archived) {e : SharedStep}
    {out : Option Returned} (hready : x.Ready e) (hx : x.step e = some (out, x')) :
    x.base.Advanced x'.base ∧ x'.Inv := by
  obtain ⟨es, os, hp, hrun, -, hinv⟩ := h.step hready hx
  exact ⟨ha.run h.base hp hrun, hinv⟩

/-- Between the steps, as far as enumeration `i` goes: it was called with the
limit `limit` when the table held `c`, and the keys of `c` are recorded or
ahead. -/
structure SharedState.Walking (x : SharedState) (i limit : Nat)
    (c : Key → Option (LType × Word)) : Prop where
  inv : x.Inv
  archived : x.base.Archived
  kept : KeptTypes c x.base.holds
  walker : ∃ r, x.walkers[i]? = some (some r) ∧ r.limit = limit
    ∧ r.Ok (fun key => (c key).isSome) x.base

/-- Only `keys` and `walk` move a walker. -/
theorem SharedState.walkers_of_step {e : SharedStep} {out : Option Returned}
    (hx : x.step e = some (out, x')) (hk : ∀ cap, e ≠ .keys i cap) (hw : e ≠ .walk i) :
    x'.walkers[i]? = x.walkers[i]? := by
  have hwithin : ∀ {b : SearchStep} {o : Option Returned} {y : SharedState},
      x.within b = some (o, y) → y.walkers = x.walkers := by
    intro b o y hb
    obtain ⟨-, base, -, rfl, -⟩ := SharedState.of_within hb
    rfl
  cases e with
  | search j key result => rw [hwithin hx]
  | read j => rw [hwithin hx]
  | set j key v =>
    obtain ⟨-, rfl⟩ := Option.some.inj hx |> Prod.mk.inj
    rfl
  | next j =>
    obtain ⟨y, -, hx⟩ := Option.bind_eq_some_iff.mp hx
    cases y with
    | idle => exact absurd hx (by simp [SharedState.exec])
    | lock key v =>
      unfold SharedState.exec at hx
      cases hl : x.lock <;> rw [hl] at hx <;> cases hx <;> rfl
    | insert key v =>
      obtain ⟨m, -, hx⟩ := Option.bind_eq_some_iff.mp hx
      obtain ⟨r, -, hx⟩ := Option.bind_eq_some_iff.mp hx
      obtain ⟨⟨o, y⟩, hb, hx⟩ := Option.bind_eq_some_iff.mp hx
      obtain ⟨-, rfl⟩ := Option.some.inj hx |> Prod.mk.inj
      have hsame : y.walkers = x.walkers := hwithin hb
      show y.walkers[i]? = _
      rw [hsame]
    | fill =>
      obtain ⟨⟨o, y⟩, hb, hx⟩ := Option.bind_eq_some_iff.mp hx
      obtain ⟨-, rfl⟩ := Option.some.inj hx |> Prod.mk.inj
      have hsame : y.walkers = x.walkers := hwithin hb
      show y.walkers[i]? = _
      rw [hsame]
    | swap =>
      obtain ⟨⟨o, y⟩, hb, hx⟩ := Option.bind_eq_some_iff.mp hx
      obtain ⟨-, rfl⟩ := Option.some.inj hx |> Prod.mk.inj
      have hsame : y.walkers = x.walkers := hwithin hb
      show y.walkers[i]? = _
      rw [hsame]
    | unlock =>
      obtain ⟨-, rfl⟩ := Option.some.inj hx |> Prod.mk.inj
      rfl
  | keys j cap =>
    obtain ⟨-, rfl⟩ := Option.some.inj hx |> Prod.mk.inj
    exact List.getElem?_set_ne (fun hj => hk cap (by rw [hj]))
  | walk j =>
    obtain ⟨r, -, hx⟩ := Option.bind_eq_some_iff.mp hx
    obtain ⟨r, -, hx⟩ := Option.bind_eq_some_iff.mp hx
    obtain ⟨⟨o, r'⟩, -, hx⟩ := Option.bind_eq_some_iff.mp hx
    obtain ⟨-, rfl⟩ := Option.some.inj hx |> Prod.mk.inj
    exact List.getElem?_set_ne (fun hj => hw (by rw [hj]))

theorem KeptTypes.trans {c c' c'' : Key → Option (LType × Word)} (h : KeptTypes c c')
    (h' : KeptTypes c' c'') : KeptTypes c c'' := by
  intro key ty w hc
  obtain ⟨w', hc'⟩ := h key ty w hc
  exact h' key ty w' hc'

/-- A step of an enumeration leaves the maps. -/
theorem SharedState.base_of_walk {out : Option Returned}
    (hx : x.step (.walk i) = some (out, x')) : x'.base = x.base := by
  obtain ⟨r, -, hx⟩ := Option.bind_eq_some_iff.mp hx
  obtain ⟨r, -, hx⟩ := Option.bind_eq_some_iff.mp hx
  obtain ⟨p, -, hx⟩ := Option.bind_eq_some_iff.mp hx
  obtain ⟨-, rfl⟩ := Option.some.inj hx |> Prod.mk.inj
  rfl

/-- A step of another thread, or of this one in another call. -/
theorem SharedState.Walking.other {limit : Nat} {c : Key → Option (LType × Word)}
    (h : x.Walking i limit c) {e : SharedStep} {out : Option Returned} (hready : x.Ready e)
    (hx : x.step e = some (out, x')) (hw : e ≠ .walk i) : x'.Walking i limit c := by
  obtain ⟨hadv, hinv⟩ := h.inv.advanced h.archived hready hx
  obtain ⟨r, hr, hlimit, hok⟩ := h.walker
  have hk : ∀ cap, e ≠ .keys i cap := by
    intro cap he
    subst he
    have hidle : x.walkers[i]? = some none := hready
    rw [hr] at hidle
    exact absurd (Option.some.inj hidle) (by simp)
  refine ⟨hinv, hadv.archived, h.kept.trans hadv.kept, r, ?_, hlimit, hok.later hadv⟩
  rw [SharedState.walkers_of_step hx hk hw, hr]

/-- What the enumeration returns is what it wrote, and the maps are as before. -/
def SharedState.Returns (x : SharedState) (limit : Nat) (c : Key → Option (LType × Word))
    (records : List TableKey) : Prop :=
  ∃ (r : Walker) (a : Addr), r.limit = limit ∧ r.records = records ∧ r.phase = .release a
    ∧ r.Ok (fun key => (c key).isSome) x.base

/-- Its own step: it goes on, or returns. -/
theorem SharedState.Walking.walk {limit : Nat} {c : Key → Option (LType × Word)}
    (h : x.Walking i limit c) {out : Option Returned} (hx : x.step (.walk i) = some (out, x')) :
    (out = none ∧ x'.Walking i limit c)
      ∨ ∃ records, out = some (.keys i records) ∧ x.Returns limit c records := by
  obtain ⟨r, hr, hlimit, hok⟩ := h.walker
  have hready : x.Ready (.walk i) := by
    show (x.walkers[i]?.bind id).isSome
    rw [hr]
    rfl
  obtain ⟨hadv, hinv⟩ := h.inv.advanced h.archived hready hx
  unfold SharedState.step at hx
  simp only [hr, Option.bind_eq_bind, Option.bind_some] at hx
  obtain ⟨⟨o, q⟩, hadvance, hx⟩ := Option.bind_eq_some_iff.mp hx
  obtain ⟨rfl, rfl⟩ := Option.some.inj hx |> Prod.mk.inj
  rcases h.archived.advance h.inv.base hok with ⟨q', hq, hql, -, hqok⟩ | ⟨hq, a, ha⟩ | ⟨hq, -⟩
  · rw [hq, Option.some.injEq, Prod.mk.injEq] at hadvance
    obtain ⟨rfl, rfl⟩ := hadvance
    exact Or.inl ⟨rfl, hinv, hadv.archived, h.kept, q',
      List.getElem?_set_self (List.getElem?_eq_some_iff.mp hr).1, hql.trans hlimit, hqok⟩
  · rw [hq, Option.some.injEq, Prod.mk.injEq] at hadvance
    obtain ⟨rfl, rfl⟩ := hadvance
    exact Or.inr ⟨r.records, rfl, r, a, hlimit, rfl, ha, hok⟩
  · rw [hq] at hadvance
    cases hadvance

theorem SharedState.Walking.run {limit : Nat} {c : Key → Option (LType × Word)}
    {mid : List SharedStep} :
    ∀ {x x' : SharedState} {outs : List (Option Returned)}, x.Walking i limit c →
      Run.Along SharedState.step SharedState.Ready x mid →
      Run.run SharedState.step x mid = some (outs, x') →
      (∀ o ∈ outs, ∀ rs, o ≠ some (.keys i rs)) → x'.Walking i limit c := by
  induction mid with
  | nil =>
    intro x x' outs h _ hrun _
    simp only [Run.run_nil, Option.some.injEq, Prod.mk.injEq] at hrun
    rw [← hrun.2]
    exact h
  | cons e mid ih =>
    intro x x' outs h hready hrun hnone
    obtain ⟨o, x₁, os, he, hrest, rfl⟩ := (Run.run_cons_some _).mp hrun
    have hgo : x₁.Walking i limit c := by
      by_cases hw : e = .walk i
      · subst hw
        rcases h.walk he with ⟨-, hgo⟩ | ⟨records, hret, -⟩
        · exact hgo
        · exact absurd hret (hnone o List.mem_cons_self records)
      · exact h.other hready.1 he hw
    exact ih hgo (hready.2 o x₁ he) hrest (fun o ho => hnone o (List.mem_cons_of_mem _ ho))

/-- What the records of a listed map say. -/
theorem LMap.Listed.records {c : Key → Option (LType × Word)} (h : m.Listed c)
    {rs : List TableKey} (hsub : rs <+ m.records) :
    (rs.map TableKey.toKey).Nodup
      ∧ ∀ r ∈ rs, ∃ key w, r.toKey = some key ∧ c key = some (r.type, w) := by
  rw [h.sized.records_eq] at hsub
  constructor
  · have hkeys := hsub.map TableKey.toKey
    rw [toKey_records h.node] at hkeys
    exact h.nodup.sublist hkeys
  · intro r hr
    obtain ⟨n, hn, rfl⟩ := List.mem_map.mp (hsub.subset hr)
    obtain ⟨key, w, hkey, hc⟩ := h.held n hn
    exact ⟨key, w, by rw [(h.node n hn).toKey_record, hkey], by rw [Node.record_type]; exact hc⟩

theorem SharedState.run_archived {a : Addr} {n : Nat} {steps : List SharedStep}
    {outs : List (Option Returned)}
    (hrun : Run.run SharedState.step (SharedState.start a n) steps = some (outs, x))
    (hready : Run.Along SharedState.step SharedState.Ready (SharedState.start a n) steps) :
    x.Inv ∧ x.base.Archived := by
  refine Run.run_inv_along SharedState.step (I := fun x => x.Inv ∧ x.base.Archived) ?_
    ⟨SharedState.start_inv a n, SearchState.start_archived a n⟩ hready hrun
  rintro x e out x' ⟨hinv, ha⟩ hr hx
  obtain ⟨hadv, hinv'⟩ := hinv.advanced ha hr hx
  exact ⟨hinv', hadv.archived⟩

/-- An enumeration beside any number of setters, searches and enumerations:
no key is recorded twice, every record is of a key that the table holds when
`keys` returns, with its type, and unless the buffer is full every key that the
table held when `keys` was called is recorded. -/
theorem keys_snapshot {a : Addr} {n cap : Nat} {pre mid : List SharedStep}
    {outs₀ outs : List (Option Returned)} {x₁ x₂ : SharedState} {records : List TableKey}
    (hready : Run.Along SharedState.step SharedState.Ready (SharedState.start a n)
      (pre ++ (.keys i cap :: mid ++ [.walk i])))
    (hpre : Run.run SharedState.step (SharedState.start a n) pre = some (outs₀, x₁))
    (hmid : Run.run SharedState.step x₁ (.keys i cap :: mid ++ [.walk i])
      = some (outs ++ [some (.keys i records)], x₂))
    (hfirst : ∀ o ∈ outs, ∀ rs, o ≠ some (.keys i rs)) :
    records.length ≤ keysLimit cap ∧ (records.map TableKey.toKey).Nodup
      ∧ (∀ r ∈ records, ∃ key w, r.toKey = some key ∧ x₂.base.holds key = some (r.type, w))
      ∧ (records.length = keysLimit cap ∨ ∀ key ty w, x₁.base.holds key = some (ty, w) →
        ∃ r ∈ records, r.toKey = some key ∧ r.type = ty) := by
  obtain ⟨hinv, harch⟩ := SharedState.run_archived hpre (Run.along_take _ hready)
  have hready₁ := Run.along_drop _ hready hpre
  obtain ⟨outs₁, x₃, o, hrun, hlast, hout⟩ := (Run.run_snoc_some _).mp hmid
  obtain ⟨rfl, ho⟩ := List.append_inj' hout rfl
  obtain rfl : some (.keys i records) = o := (List.cons.inj ho).1
  obtain ⟨o₁, y, os, hcall, hrun', hos⟩ := (Run.run_cons_some _).mp hrun
  obtain ⟨rfl, rfl⟩ := Option.some.inj hcall |> Prod.mk.inj
  -- the call has grabbed no map yet
  have hi : x₁.walkers[i]? = some none := hready₁.1
  have hwalking : SharedState.Walking
      { x₁ with walkers := x₁.walkers.set i (some (Walker.call cap)) } i (keysLimit cap)
      x₁.base.holds :=
    ⟨⟨hinv.base, hinv.lock, hinv.proper, hinv.filled⟩, harch, fun _ _ w hc => ⟨w, hc⟩,
      Walker.call cap, List.getElem?_set_self (List.getElem?_eq_some_iff.mp hi).1, rfl,
      Nat.zero_le _, Nat.zero_le _, rfl, fun key hk => hk⟩
  have hready₂ := hready₁.2 none _ hcall
  have h := hwalking.run (Run.along_take _ hready₂) hrun'
    (fun o ho => hfirst o (by rw [hos]; exact List.mem_cons_of_mem _ ho))
  -- the last step returns what the walker wrote
  have hsame : x₂.base = x₃.base := SharedState.base_of_walk hlast
  obtain ⟨r, hret, q, b, hlimit, hrecords, hphase, hok⟩ :
      ∃ r, some (Returned.keys i records) = some (.keys i r) ∧ x₃.Returns (keysLimit cap) _ r := by
    rcases h.walk hlast with ⟨hnone, -⟩ | hret
    · exact absurd hnone (by simp)
    · exact hret
  obtain rfl : records = r := (Returned.keys.inj (Option.some.inj hret)).2
  obtain ⟨hlen, hroom, hok⟩ := hok
  rw [hphase] at hok
  obtain ⟨m, hm, hf, hsub, hC⟩ := hok
  have hcount := q.length_records hroom
  rw [hrecords] at hcount hsub hC
  rw [hlimit] at hlen hC
  rw [← hcount] at hlen hC
  obtain ⟨hnodup, hheld⟩ := ((h.archived b m hm).2 hf).records hsub
  rw [hsame]
  refine ⟨hlen, hnodup, hheld, hC.imp_right ?_⟩
  intro hall key ty w hk
  obtain ⟨r, hr, hkey⟩ := hall key (Option.isSome_iff_exists.mpr ⟨_, hk⟩)
  obtain ⟨key', w', hkey', hty⟩ := hheld r hr
  obtain ⟨w'', hk'⟩ := h.kept key ty w hk
  -- the type is the one the key had, and has
  rw [hkey, Option.some.injEq] at hkey'
  rw [← hkey', hk', Option.some.injEq, Prod.mk.injEq] at hty
  exact ⟨r, hr, hkey, hty.1.symm⟩

/-- Two setters, one of them while the enumeration walks. -/
theorem keys_snapshot_two :
    ∃ (x₁ x₂ : SharedState) (records : List TableKey),
      records.length ≤ keysLimit 64 ∧ (records.map TableKey.toKey).Nodup
      ∧ (∀ r ∈ records, ∃ key w, r.toKey = some key ∧ x₂.base.holds key = some (r.type, w))
      ∧ (records.length = keysLimit 64 ∨ ∀ key ty w, x₁.base.holds key = some (ty, w) →
        ∃ r ∈ records, r.toKey = some key ∧ r.type = ty) := by
  have hgo : ((Run.run SharedState.step (SharedState.start 0 2)
      [.set 0 (.num 1) ⟨0, .number, 5⟩, .next 0, .next 0, .next 0]).bind
      (fun p => (Run.run SharedState.step p.2 (.keys 1 64 :: ([.walk 1, .walk 1,
        .set 0 (.num 2) ⟨0, .number, 6⟩, .next 0, .next 0, .next 0]
        ++ List.replicate 31 (.walk 1)) ++ [.walk 1])).map Prod.fst))
      = some (List.replicate 38 none ++ [some (.keys 1 [⟨.number, none, 1⟩, ⟨.number, none, 2⟩])]) := by
    decide
  obtain ⟨⟨outs₀, x₁⟩, hpre, hgo⟩ := Option.bind_eq_some_iff.mp hgo
  obtain ⟨⟨outs, x₂⟩, hmid, rfl⟩ := Option.map_eq_some_iff.mp hgo
  have hnone : ∀ o ∈ List.replicate 38 (none : Option Returned), ∀ rs, o ≠ some (.keys 1 rs) := by
    intro o ho rs
    rw [List.eq_of_mem_replicate ho]
    simp
  exact ⟨x₁, x₂, _, keys_snapshot (by decide) hpre hmid hnone⟩

/-! ## §5. No thread is stuck. -/

/-- The pointers that a search is about to follow are there. -/
def Reader.Live (s : SearchState) (r : Reader) : Prop :=
  match r.phase with
  | .walk a _ => ∃ m, s.maps a = some m ∧ s.filled ≠ some a
  | .copy a j => ∃ m, s.maps a = some m ∧ s.filled ≠ some a
      ∧ j < (m.recordsAt (bucket m.size r.key)).length
  | _ => True

theorem Reader.Live.later {r : Reader} (h : r.Live s) (hs : s.Advanced s') : r.Live s' := by
  obtain ⟨key, result, phase⟩ := r
  cases phase with
  | walk a j =>
    obtain ⟨m, ha, hf⟩ := h
    obtain ⟨hf', m', ha', -⟩ := hs.grew a m ha hf
    exact ⟨m', ha', hf'⟩
  | copy a j =>
    obtain ⟨m, ha, hf, hj⟩ := h
    obtain ⟨hf', m', ha', hsize, hgrow⟩ := hs.grew a m ha hf
    refine ⟨m', ha', hf', ?_⟩
    rw [hsize]
    exact Nat.lt_of_lt_of_le hj (hgrow _).length_le
  | grab => trivial
  | release a => trivial
  | compare a => trivial

/-- Every search under way can go on. -/
def SearchState.Alive (s : SearchState) : Prop := ∀ r, some r ∈ s.readers → r.Live s

/-- The chain of a key in a map that was current once. -/
theorem SearchState.Archived.chain (h : s.Archived) {a : Addr} (ha : s.maps a = some m)
    (hf : s.filled ≠ some a) (key : Key) :
    ∃ c, s.chainAt a key = some c ∧ (m.recordsAt (bucket m.size key)).length = c.length := by
  obtain ⟨c, hc⟩ := ((h a m ha).2 hf).sized.chain key
  refine ⟨c, ?_, ?_⟩
  · unfold SearchState.chainAt
    rw [ha]
    exact hc
  · unfold LMap.recordsAt
    rw [LMap.chainAt_eq hc, List.length_map]

/-- The next step of a search: it goes on and can go on after that, or
returns. -/
theorem SearchState.Archived.next (h : s.Archived) (hinv : s.Inv) {r : Reader} (hr : r.Live s) :
    ∃ out r', s.next r = some (out, r') ∧ ∀ q, r' = some q → q.Live s := by
  obtain ⟨key, result, phase⟩ := r
  cases phase with
  | grab =>
    refine ⟨none, _, rfl, ?_⟩
    rintro q ⟨⟩
    obtain ⟨m, hm, hf, -⟩ := h.current hinv
    exact ⟨m, hm, hf⟩
  | walk a j =>
    obtain ⟨m, ha, hf⟩ := hr
    obtain ⟨chain, hc, hlen⟩ := h.chain ha hf key
    unfold SearchState.next
    simp only [hc, Option.bind_eq_bind, Option.bind_some]
    cases hn : chain[j]? with
    | none =>
      refine ⟨none, _, rfl, ?_⟩
      rintro q ⟨⟩
      trivial
    | some n =>
      cases hk : isInHash key n with
      | false =>
        simp only [hk, Bool.false_eq_true, if_false]
        refine ⟨none, _, rfl, ?_⟩
        rintro q ⟨⟩
        exact ⟨m, ha, hf⟩
      | true =>
        simp only [hk, if_true]
        refine ⟨none, _, rfl, ?_⟩
        rintro q ⟨⟩
        exact ⟨m, ha, hf, by rw [hlen]; exact (List.getElem?_eq_some_iff.mp hn).1⟩
  | copy a j =>
    obtain ⟨m, ha, hf, hj⟩ := hr
    obtain ⟨c, hc, hlen⟩ := h.chain ha hf key
    rw [hlen] at hj
    unfold SearchState.next
    simp only [hc, List.getElem?_eq_getElem hj, Option.bind_eq_bind, Option.bind_some]
    refine ⟨none, _, rfl, ?_⟩
    rintro q ⟨⟩
    trivial
  | release a =>
    refine ⟨none, _, rfl, ?_⟩
    rintro q ⟨⟩
    trivial
  | compare a =>
    unfold SearchState.next
    by_cases hac : a ≠ s.cur
    · refine ⟨none, _, if_pos hac, ?_⟩
      rintro q ⟨⟩
      trivial
    · exact ⟨_, none, if_neg hac, fun q hq => absurd hq (by simp)⟩

/-- Every search can go on after a step of any thread. -/
theorem SearchState.Alive.step (h : s.Alive) (ha : s.Archived) (hinv : s.Inv) {e : SearchStep}
    (hp : e.Proper) {out : Option (Nat × LType × Word)} (hx : s.step e = some (out, s')) :
    s'.Alive := by
  have hadv := ha.step hinv hp hx
  have hsame : s'.readers = s.readers → s'.Alive := by
    intro hr r hmem
    rw [hr] at hmem
    exact (h r hmem).later hadv
  have hset : ∀ (i : Nat) (q : Option Reader), s'.readers = s.readers.set i q →
      (∀ r, q = some r → r.Live s') → s'.Alive := by
    intro i q hr hq r hmem
    rw [hr] at hmem
    rcases List.mem_or_eq_of_mem_set hmem with hmem | heq
    · exact (h r hmem).later hadv
    · exact hq r heq.symm
  cases e with
  | call i key result =>
    unfold SearchState.step at hx
    obtain ⟨r, -, hx⟩ := Option.bind_eq_some_iff.mp hx
    split at hx
    · exact absurd hx (by simp)
    · obtain ⟨-, rfl⟩ := Option.some.inj hx |> Prod.mk.inj
      refine hset i _ rfl ?_
      rintro q ⟨⟩
      trivial
  | read i =>
    unfold SearchState.step at hx
    obtain ⟨r, hr, hx⟩ := Option.bind_eq_some_iff.mp hx
    obtain ⟨r', hr', hx⟩ := Option.bind_eq_some_iff.mp hx
    rw [hr'] at hr
    obtain ⟨⟨o, q⟩, hn, hx⟩ := Option.bind_eq_some_iff.mp hx
    obtain ⟨-, rfl⟩ := Option.some.inj hx |> Prod.mk.inj
    obtain ⟨o', q', hn', hlive⟩ := ha.next hinv (h r' (List.mem_of_getElem? hr))
    rw [hn', Option.some.injEq, Prod.mk.injEq] at hn
    obtain ⟨-, rfl⟩ := hn
    exact hset i _ rfl (fun r hq => (hlive r hq).later hadv)
  | write key v => exact hsame (hinv.write hp.1 hp.2 hx).2.readers
  | fill => exact hsame (hinv.fill hx).2.readers
  | swap => exact hsame (hinv.swap hx).2.readers

/-- Between the steps: every search and every enumeration can go on. -/
structure SharedState.Alive (x : SharedState) : Prop where
  inv : x.Inv
  archived : x.base.Archived
  readers : x.base.Alive
  walkers : ∀ (i : Nat) (r : Walker), x.walkers[i]? = some (some r) → r.Ok (fun _ => False) x.base
    ∧ r.limit ≤ recordRoom r.vv

/-- `keys` is called with a capacity that fits its array: one record at least,
and no more than an `int` counts to. -/
def SharedStep.Roomy : SharedStep → Prop
  | .keys _ cap => 1 ≤ cap ∧ cap ≤ 2147483649
  | _ => True

instance SharedStep.decidableRoomy : ∀ e : SharedStep, Decidable e.Roomy
  | .search _ _ _ => inferInstanceAs (Decidable True)
  | .read _ => inferInstanceAs (Decidable True)
  | .set _ _ _ => inferInstanceAs (Decidable True)
  | .next _ => inferInstanceAs (Decidable True)
  | .keys _ cap => inferInstanceAs (Decidable (1 ≤ cap ∧ cap ≤ 2147483649))
  | .walk _ => inferInstanceAs (Decidable True)

/-- Such a call has room for all records it may write. -/
theorem Walker.call_room {cap : Nat} (h : (SharedStep.keys i cap).Roomy) :
    (Walker.call cap).limit ≤ recordRoom (Walker.call cap).vv := by
  obtain ⟨h1, h2⟩ : 1 ≤ cap ∧ cap ≤ 2147483649 := h
  show (cap + 18446744073709551615) % 18446744073709551616 ≤ min (List.replicate cap _).length _
  rw [List.length_replicate]
  omega

theorem SharedState.start_alive (a : Addr) (n : Nat) : (SharedState.start a n).Alive where
  inv := SharedState.start_inv a n
  archived := SearchState.start_archived a n
  readers := fun r hr => absurd (List.eq_of_mem_replicate hr) (by simp)
  walkers := fun i r hr =>
    absurd (List.eq_of_mem_replicate (List.mem_of_getElem? hr)) (by simp)

theorem SharedState.Alive.step (h : x.Alive) {e : SharedStep} (hready : x.Ready e) (hroom : e.Roomy)
    {out : Option Returned} (hx : x.step e = some (out, x')) : x'.Alive := by
  obtain ⟨es, os, hp, hrun, -, hinv⟩ := h.inv.step hready hx
  have hadv := h.archived.run h.inv.base hp hrun
  -- the searches go by the steps of the one-writer machine
  obtain ⟨-, -, hreaders⟩ := Run.run_inv_along SearchState.step
    (I := fun s => s.Inv ∧ s.Archived ∧ s.Alive)
    (fun s e o s' hs hp hx => ⟨(hs.1.step hp hx).1, (hs.2.1.step hs.1 hp hx).archived,
      hs.2.2.step hs.2.1 hs.1 hp hx⟩) ⟨h.inv.base, h.archived, h.readers⟩ hp hrun
  refine ⟨hinv, hadv.archived, hreaders, ?_⟩
  intro i r hr
  by_cases hk : ∃ cap, e = .keys i cap
  · obtain ⟨cap, rfl⟩ := hk
    obtain ⟨-, rfl⟩ := Option.some.inj hx |> Prod.mk.inj
    have hi : x.walkers[i]? = some none := hready
    have hr : (x.walkers.set i _)[i]? = some (some r) := hr
    rw [List.getElem?_set_self (List.getElem?_eq_some_iff.mp hi).1, Option.some.injEq,
      Option.some.injEq] at hr
    rw [← hr]
    exact ⟨⟨Nat.zero_le _, Nat.zero_le _, rfl, fun _ hc => hc.elim⟩, Walker.call_room hroom⟩
  · by_cases hw : e = .walk i
    · subst hw
      obtain ⟨q, hq, hx⟩ := Option.bind_eq_some_iff.mp hx
      obtain ⟨q, hq', hx⟩ := Option.bind_eq_some_iff.mp hx
      rw [hq'] at hq
      obtain ⟨⟨o, q'⟩, hadvance, hx⟩ := Option.bind_eq_some_iff.mp hx
      obtain ⟨-, rfl⟩ := Option.some.inj hx |> Prod.mk.inj
      have hr : (x.walkers.set i q')[i]? = some (some r) := hr
      rw [List.getElem?_set_self (List.getElem?_eq_some_iff.mp hq).1, Option.some.injEq] at hr
      obtain ⟨hok, hfits⟩ := h.walkers i q hq
      rcases h.archived.advance h.inv.base hok with ⟨q'', hq', hlimit, hsame, hok⟩ | ⟨hq', -⟩ | ⟨hq', -⟩
      · rw [hq', Option.some.injEq, Prod.mk.injEq, hr, Option.some.injEq] at hadvance
        rw [← hadvance.2, hlimit, hsame]
        exact ⟨hok, hfits⟩
      · rw [hq', Option.some.injEq, Prod.mk.injEq, hr] at hadvance
        exact absurd hadvance.2 (by simp)
      · rw [hq'] at hadvance
        cases hadvance
    · rw [SharedState.walkers_of_step hx (fun cap he => hk ⟨cap, he⟩) hw] at hr
      obtain ⟨hok, hfits⟩ := h.walkers i r hr
      exact ⟨hok.later hadv, hfits⟩

/-- A step of the one-writer machine that goes through. -/
theorem SharedState.within_some {e : SearchStep} {p : Option (Nat × LType × Word) × SearchState}
    (h : x.base.step e = some p) :
    x.within e = some (p.1.map (fun a => .search a.1 a.2), { x with base := p.2 }) := by
  unfold SharedState.within
  rw [h]
  rfl

/-- The next step of a setter goes through, unless it is an expansion and the
new array is too great to allocate. -/
theorem SharedState.Inv.exec_some (h : x.Inv) {y : Writer} (hi : x.writers[i]? = some y)
    (hidle : y ≠ .idle) :
    (x.exec i y).isSome ∨ y = .fill ∧ ∃ m, x.base.maps x.base.cur = some m
      ∧ 1152921504606846976 ≤ asSize m.newSize := by
  cases y with
  | idle => exact absurd rfl hidle
  | lock key v =>
    unfold SharedState.exec
    cases x.lock <;> exact Or.inl rfl
  | insert key v =>
    have hf := h.unfilled hi rfl rfl
    obtain ⟨m, hm, hminv⟩ := h.base.plain hf
    obtain ⟨brk', -, hins⟩ := hminv.toWf.insertValue_eq key x.base.brk v
    have hstep : (x.base.step (.write key v)).isSome := by
      unfold SearchState.step
      simp only [hf, hm, hins, Option.isSome_none, Bool.false_eq_true, if_false,
        Option.bind_eq_bind, Option.bind_some]
      rfl
    obtain ⟨p, hp⟩ := Option.isSome_iff_exists.mp hstep
    unfold SharedState.exec
    simp only [hm, hins, SharedState.within_some hp, Option.bind_eq_bind, Option.bind_some]
    exact Or.inl rfl
  | fill =>
    have hf := h.unfilled hi rfl rfl
    obtain ⟨m, hm, hminv⟩ := h.base.plain hf
    by_cases hroom : asSize m.newSize < 1152921504606846976
    · obtain ⟨nm, brk', heq, -⟩ :=
        hminv.doubled_spec (hminv.toSized.canGrow_iff.mpr hroom) (x.base.brk + 1)
      have hstep : (x.base.step .fill).isSome := by
        unfold SearchState.step
        simp only [hf, hm, heq, hroom, Option.isSome_none, Bool.false_eq_true, if_false, if_true,
          Option.bind_eq_bind, Option.bind_some]
        rfl
      obtain ⟨p, hp⟩ := Option.isSome_iff_exists.mp hstep
      unfold SharedState.exec
      simp only [SharedState.within_some hp, Option.bind_eq_bind, Option.bind_some]
      exact Or.inl rfl
    · exact Or.inr ⟨rfl, m, hm, Nat.le_of_not_lt hroom⟩
  | swap =>
    have hf : x.base.filled.isSome := h.filled.mpr ⟨.swap, List.mem_of_getElem? hi, rfl⟩
    obtain ⟨a, ha⟩ := Option.isSome_iff_exists.mp hf
    have hp : x.base.step .swap = some (none, { x.base with cur := a, filled := none }) := by
      unfold SearchState.step
      rw [ha]
      rfl
    unfold SharedState.exec
    simp only [SharedState.within_some hp, Option.bind_eq_bind, Option.bind_some]
    exact Or.inl rfl
  | unlock => exact Or.inl rfl

/-- Whatever the threads did, the next step of each of them goes through: no
search, enumeration or setter ever follows a pointer that is not there, and no
record is written outside its array.  The one exception is an expansion whose
array is too great to allocate. -/
theorem shared_never_stuck {a : Addr} {n : Nat} {steps : List SharedStep}
    {outs : List (Option Returned)}
    (hrun : Run.run SharedState.step (SharedState.start a n) steps = some (outs, x))
    (hready : Run.Along SharedState.step SharedState.Ready (SharedState.start a n) steps)
    (hroom : ∀ e ∈ steps, e.Roomy) {e : SharedStep} (he : x.Ready e) :
    (x.step e).isSome ∨ ∃ i m, e = .next i ∧ x.writers[i]? = some .fill
      ∧ x.base.maps x.base.cur = some m ∧ 1152921504606846976 ≤ asSize m.newSize := by
  have h : x.Alive := Run.run_inv_along SharedState.step (I := SharedState.Alive)
    (fun _ _ _ _ hs hr hx => hs.step hr.1 hr.2 hx) (SharedState.start_alive a n)
    (Run.along_and_mem SharedState.step hready hroom) hrun
  cases e with
  | search i key result =>
    left
    have hi : x.base.readers[i]? = some none := he
    have hp : x.base.step (.call i key result) = some (none, { x.base with
        readers := x.base.readers.set i (some ⟨key, result, .grab⟩) }) := by
      simp only [SearchState.step, hi, Option.bind_eq_bind, Option.bind_some]
      rfl
    simp only [SharedState.step, SharedState.within_some hp]
    rfl
  | read i =>
    left
    obtain ⟨r, hr⟩ := Option.isSome_iff_exists.mp he
    obtain ⟨q, hi, rfl⟩ := Option.bind_eq_some_iff.mp hr
    obtain ⟨out, r', hn, -⟩ := h.archived.next h.inv.base (h.readers r (List.mem_of_getElem? hi))
    have hp : x.base.step (.read i) = some (out.map (fun a => (i, a)), { x.base with
        readers := x.base.readers.set i r' }) := by
      unfold SearchState.step
      simp only [hi, hn, Option.bind_eq_bind, Option.bind_some]
      rfl
    simp only [SharedState.step, SharedState.within_some hp]
    rfl
  | set i key v => exact Or.inl rfl
  | next i =>
    obtain ⟨hsome, hidle⟩ := he
    obtain ⟨y, hy⟩ := Option.ne_none_iff_exists'.mp hsome
    simp only [SharedState.step, hy, Option.bind_eq_bind, Option.bind_some]
    rcases h.inv.exec_some hy (fun hyi => hidle (by rw [hy, hyi])) with hgo | ⟨rfl, m, hm, hbig⟩
    · exact Or.inl hgo
    · exact Or.inr ⟨i, m, rfl, hy, hm, hbig⟩
  | keys i cap => exact Or.inl rfl
  | walk i =>
    left
    obtain ⟨r, hr⟩ := Option.isSome_iff_exists.mp he
    obtain ⟨q, hi, rfl⟩ := Option.bind_eq_some_iff.mp hr
    simp only [SharedState.step, hi, Option.bind_eq_bind, Option.bind_some]
    obtain ⟨hok, hfits⟩ := h.walkers i r hi
    rcases h.archived.advance h.inv.base hok with ⟨q', hq, -⟩ | ⟨hq, -⟩ | ⟨-, hfull⟩
    · rw [hq]
      rfl
    · rw [hq]
      rfl
    · exact absurd hfull (Nat.not_lt.mpr hfits)

/-- A search that walks the map of an enumeration, beside a setter. -/
theorem shared_never_stuck_two :
    ∃ x : SharedState, (x.step (.read 0)).isSome ∨ ∃ i m, SharedStep.read 0 = .next i
      ∧ x.writers[i]? = some .fill ∧ x.base.maps x.base.cur = some m
      ∧ 1152921504606846976 ≤ asSize m.newSize := by
  have hgo : (Run.run SharedState.step (SharedState.start 0 2)
      [.set 0 (.num 1) ⟨0, .number, 5⟩, .next 0, .keys 1 64, .walk 1, .search 0 (.num 1) .blank,
        .read 0, .next 0]).map (fun p => decide (p.2.Ready (.read 0))) = some true := by decide
  obtain ⟨⟨outs, x⟩, hrun, hready⟩ := Option.map_eq_some_iff.mp hgo
  exact ⟨x, shared_never_stuck hrun (by decide) (by decide) (of_decide_eq_true hready)⟩

end LightTable
