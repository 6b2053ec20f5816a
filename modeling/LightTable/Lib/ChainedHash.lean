/-
  LightTable.Lib.ChainedHash
  ──────────────────────────
  Chained hash tables in general: buckets are lists of entries, an entry
  answers to at most one key, and a lookup takes the first entry of a bucket
  that answers to its key.

  The two facts a hash table rests on:

    • `lookup_bucket` — where every entry stands in the bucket of its key
      (`Placed`), looking in that bucket is looking in the whole table;
    • `lookup_perm` — where no two entries answer to one key, the order of the
      entries does not matter.

  So any way of moving the entries to other buckets keeps every lookup, as
  long as the entries are permuted and each lands in its bucket.
-/
import Mathlib.Data.List.Perm.Basic
import Mathlib.Data.List.Nodup
import Mathlib.Data.List.Basic

namespace ChainedHash

variable {E K : Type*} (key : E → Option K)

/-! ## §1. Buckets. -/

/-- Every entry stands in the bucket its key hashes to. -/
def Placed (h : K → Nat) (b : List (List E)) : Prop :=
  ∀ i l, b[i]? = some l → ∀ e ∈ l, ∃ k, key e = some k ∧ h k = i

/-- Empty buckets, and what one bucket contributes to the whole. -/
theorem placed_replicate (h : K → Nat) (n : Nat) :
    Placed key h (List.replicate n ([] : List E)) := by
  intro i l hl e he
  have := List.eq_of_mem_replicate (List.mem_of_getElem? hl)
  subst this
  exact absurd he (by simp)

theorem flatten_split {b : List (List E)} {i : Nat} {l : List E} (h : b[i]? = some l) :
    b.flatten = (b.take i).flatten ++ (l ++ (b.drop (i + 1)).flatten) := by
  obtain ⟨hi, rfl⟩ := List.getElem?_eq_some_iff.mp h
  conv_lhs => rw [← List.take_append_drop i b]
  rw [List.flatten_append, List.drop_eq_getElem_cons hi, List.flatten_cons]

theorem flatten_set {b : List (List E)} {i : Nat} (l' : List E) (hi : i < b.length) :
    (b.set i l').flatten = (b.take i).flatten ++ (l' ++ (b.drop (i + 1)).flatten) := by
  rw [List.set_eq_take_append_cons_drop, if_pos hi, List.flatten_append, List.flatten_cons]

/-- Replacing a bucket by a permutation of itself with some entries added. -/
theorem flatten_set_perm {b : List (List E)} {i : Nat} {l l' s : List E}
    (h : b[i]? = some l) (hp : l'.Perm (s ++ l)) :
    (b.set i l').flatten.Perm (s ++ b.flatten) := by
  obtain ⟨hi, -⟩ := List.getElem?_eq_some_iff.mp h
  rw [flatten_set l' hi, flatten_split h]
  calc (b.take i).flatten ++ (l' ++ (b.drop (i + 1)).flatten)
      |>.Perm ((b.take i).flatten ++ (s ++ (l ++ (b.drop (i + 1)).flatten))) := by
        rw [← List.append_assoc s]
        exact (hp.append_right _).append_left _
    _ |>.Perm (s ++ ((b.take i).flatten ++ (l ++ (b.drop (i + 1)).flatten))) := by
        rw [← List.append_assoc, ← List.append_assoc s]
        exact List.perm_append_comm.append_right _

/-- The whole is its buckets, one index after the other. -/
theorem flatten_eq_range (b : List (List E)) :
    b.flatten = (List.range b.length).flatMap (fun i => (b[i]?).getD []) := by
  induction b with
  | nil => rfl
  | cons l b ih =>
    rw [List.flatten_cons, List.length_cons, List.range_succ_eq_map, List.flatMap_cons,
      List.flatMap_map, ih]
    rfl

theorem mem_flatten_set {b : List (List E)} {i : Nat} {l' : List E} {e : E}
    (h : e ∈ (b.set i l').flatten) : e ∈ b.flatten ∨ e ∈ l' := by
  obtain ⟨l, hl, he⟩ := List.mem_flatten.mp h
  rcases List.mem_or_eq_of_mem_set hl with hl | rfl
  · exact Or.inl (List.mem_flatten.mpr ⟨l, hl, he⟩)
  · exact Or.inr he

/-- Replacing a bucket keeps the placement when the new entries belong there. -/
theorem Placed.set {h : K → Nat} {b : List (List E)} (hb : Placed key h b) {i : Nat}
    {l' : List E} (hl : ∀ e ∈ l', ∃ k, key e = some k ∧ h k = i) :
    Placed key h (b.set i l') := by
  intro j l hj e he
  rw [List.getElem?_set] at hj
  split at hj
  next hij =>
    split at hj
    next =>
      cases hj
      subst hij
      exact hl e he
    next => exact absurd hj (by simp)
  next => exact hb j l hj e he

/-- Entries that all hash to one index are the bucket there. -/
theorem Placed.flatten_eq {h : K → Nat} {b : List (List E)} (hb : Placed key h b) {i : Nat}
    {l : List E} (hl : b[i]? = some l) (hall : ∀ e ∈ b.flatten, ∀ k, key e = some k → h k = i) :
    b.flatten = l := by
  have hempty : ∀ j l', b[j]? = some l' → j ≠ i → l' = [] := by
    intro j l' hj hne
    rw [List.eq_nil_iff_forall_not_mem]
    intro e he
    obtain ⟨k, hk, hkj⟩ := hb j l' hj e he
    exact hne (hkj.symm.trans (hall e (List.mem_flatten.mpr ⟨l', List.mem_of_getElem? hj, he⟩) k hk))
  have hfront : (b.take i).flatten = [] := by
    rw [List.flatten_eq_nil_iff]
    intro l' hl'
    obtain ⟨j, hj⟩ := List.mem_iff_getElem?.mp hl'
    rw [List.getElem?_take] at hj
    split at hj
    next hlt => exact hempty j l' hj (by omega)
    next => exact absurd hj (by simp)
  have hback : (b.drop (i + 1)).flatten = [] := by
    rw [List.flatten_eq_nil_iff]
    intro l' hl'
    obtain ⟨j, hj⟩ := List.mem_iff_getElem?.mp hl'
    rw [List.getElem?_drop] at hj
    exact hempty _ l' hj (by omega)
  rw [flatten_split hl, hfront, hback, List.nil_append, List.append_nil]

/-! ## §2. Changing the first match. -/

/-- Apply `f` to the first entry that satisfies `p`. -/
def modifyFirst (p : E → Bool) (f : E → E) : List E → List E
  | [] => []
  | e :: l => if p e then f e :: l else e :: modifyFirst p f l

/-- What the change keeps of the entries that may be changed stays, entry by
entry. -/
theorem map_modifyFirst_of {V : Type*} {p : E → Bool} {f : E → E} {g : E → V} {l : List E}
    (hg : ∀ e ∈ l, p e = true → g (f e) = g e) : (modifyFirst p f l).map g = l.map g := by
  induction l with
  | nil => rfl
  | cons e l ih =>
    unfold modifyFirst
    split
    next hp => rw [List.map_cons, List.map_cons, hg e List.mem_cons_self hp]
    next =>
      rw [List.map_cons, List.map_cons, ih (fun x hx => hg x (List.mem_cons_of_mem e hx))]

theorem map_modifyFirst {V : Type*} {p : E → Bool} {f : E → E} {g : E → V}
    (hg : ∀ e, g (f e) = g e) (l : List E) :
    (modifyFirst p f l).map g = l.map g :=
  map_modifyFirst_of (fun e _ _ => hg e)

theorem mem_modifyFirst {p : E → Bool} {f : E → E} {l : List E} {e : E}
    (h : e ∈ modifyFirst p f l) : e ∈ l ∨ ∃ a, l.find? p = some a ∧ e = f a := by
  induction l with
  | nil => exact absurd h (by simp [modifyFirst])
  | cons a l ih =>
    unfold modifyFirst at h
    split at h
    next hp =>
      rcases List.mem_cons.mp h with rfl | h
      · exact Or.inr ⟨a, List.find?_cons_of_pos hp, rfl⟩
      · exact Or.inl (by simp [h])
    next hp =>
      rcases List.mem_cons.mp h with rfl | h
      · exact Or.inl (by simp)
      · rcases ih h with h | ⟨x, hx, rfl⟩
        · exact Or.inl (by simp [h])
        · exact Or.inr ⟨x, by rw [List.find?_cons_of_neg hp, hx], rfl⟩

/-! ## §3. Lookup. -/

section Lookup

variable [DecidableEq K]

/-- The first entry that answers to `k`. -/
def lookup (k : K) (l : List E) : Option E := l.find? (fun e => decide (key e = some k))

@[simp] theorem lookup_nil (k : K) : lookup key k [] = none := rfl

theorem lookup_cons (k : K) (e : E) (l : List E) :
    lookup key k (e :: l) = if key e = some k then some e else lookup key k l := by
  unfold lookup
  by_cases h : key e = some k <;> simp [h]

theorem lookup_append (k : K) (l₁ l₂ : List E) :
    lookup key k (l₁ ++ l₂) = (lookup key k l₁).or (lookup key k l₂) := by
  simp [lookup]

theorem lookup_eq_none {k : K} {l : List E} :
    lookup key k l = none ↔ ∀ e ∈ l, key e ≠ some k := by
  simp [lookup]

theorem lookup_mem {k : K} {l : List E} {e : E} (h : lookup key k l = some e) :
    e ∈ l ∧ key e = some k :=
  ⟨List.mem_of_find?_eq_some h, by simpa using List.find?_some h⟩

/-- The last entry that answers to a key is one of those that do. -/
theorem lookup_reverse (k : K) (l : List E) :
    lookup key k l.reverse = (l.filter (fun e => decide (key e = some k))).getLast? := by
  unfold lookup
  rw [← List.head?_filter, List.filter_reverse, List.head?_reverse]

/-- The last entry of a key stands behind a given one, or is that one. -/
theorem lookup_reverse_split {k : K} {e : E} (h : key e = some k) (l₁ l₂ : List E) :
    lookup key k (l₁ ++ e :: l₂).reverse = some ((lookup key k l₂.reverse).getD e) := by
  rw [List.reverse_append, List.reverse_cons, List.append_assoc, lookup_append,
    List.singleton_append, lookup_cons, if_pos h]
  cases lookup key k l₂.reverse <;> rfl

/-- The entry found stands at the first index whose entry answers. -/
theorem lookup_split {k : K} {l : List E} {e : E} (h : lookup key k l = some e) :
    l = l.take (l.findIdx fun e => decide (key e = some k))
      ++ e :: l.drop (l.findIdx (fun e => decide (key e = some k)) + 1) := by
  induction l with
  | nil => exact absurd h (by simp)
  | cons a l ih =>
    rw [lookup_cons] at h
    by_cases ha : key a = some k
    · rw [if_pos ha] at h
      cases h
      simp [List.findIdx_cons, ha]
    · rw [if_neg ha] at h
      have hrest := ih h
      simp only [List.findIdx_cons, ha, decide_false, cond_false, List.take_succ_cons,
        List.drop_succ_cons, List.cons_append]
      exact congrArg (a :: ·) hrest

/-- The first entry that stores `k` is the one a lookup finds. -/
theorem lookup_of_keys {k : K} :
    ∀ {p : List (Option K)} {l : List E}, p ++ [some k] <+: l.map key → some k ∉ p →
      lookup key k l = l[p.length]?
  | [], [], h, _ => by simp at h
  | _ :: _, [], h, _ => by simp at h
  | [], e :: l, h, _ => by
      have hk : some k = key e := (List.cons_prefix_cons.mp h).1
      rw [lookup_cons, if_pos hk.symm]
      rfl
  | x :: p, e :: l, h, hp => by
      rw [List.cons_append, List.map_cons, List.cons_prefix_cons] at h
      have hne : key e ≠ some k := fun he => hp (by rw [h.1, he]; exact List.mem_cons_self)
      rw [lookup_cons, if_neg hne, lookup_of_keys h.2 (fun hm => hp (List.mem_cons_of_mem x hm))]
      rfl

/-- With one entry a key, a lookup finds exactly the entry that is there. -/
theorem lookup_eq_some {k : K} {l : List E} {e : E} (hn : (l.filterMap key).Nodup) :
    lookup key k l = some e ↔ e ∈ l ∧ key e = some k := by
  constructor
  · exact lookup_mem key
  · rintro ⟨he, hk⟩
    induction l with
    | nil => exact absurd he (by simp)
    | cons a l ih =>
      rw [lookup_cons]
      have htail : (l.filterMap key).Nodup :=
        hn.sublist (List.Sublist.filterMap key (List.sublist_cons_self a l))
      rcases List.mem_cons.mp he with rfl | he'
      · rw [if_pos hk]
      · have hne : key a ≠ some k := by
          intro ha
          rw [List.filterMap_cons_some ha] at hn
          exact (List.nodup_cons.mp hn).1 (List.mem_filterMap.mpr ⟨e, he', hk⟩)
        rw [if_neg hne]
        exact ih htail he'

/-- With one entry a key, the order of the entries does not matter. -/
theorem lookup_perm {k : K} {l₁ l₂ : List E} (hp : l₁.Perm l₂)
    (hn : (l₁.filterMap key).Nodup) : lookup key k l₁ = lookup key k l₂ := by
  have hn2 : (l₂.filterMap key).Nodup := (hp.filterMap key).nodup_iff.mp hn
  ext e
  rw [lookup_eq_some key hn, lookup_eq_some key hn2, hp.mem_iff]

/-- Lists with the same keys and the same images under `g` answer alike. -/
theorem lookup_congr {E' V : Type*} {key' : E' → Option K} {g : E → V} {g' : E' → V} (k : K) :
    ∀ {l : List E} {l' : List E'},
      l.map (fun e => (key e, g e)) = l'.map (fun e => (key' e, g' e)) →
      (lookup key k l).map g = (lookup key' k l').map g'
  | [], [], _ => rfl
  | e :: l, e' :: l', h => by
      simp only [List.map_cons, List.cons.injEq, Prod.mk.injEq] at h
      obtain ⟨⟨hk, hg⟩, ht⟩ := h
      rw [lookup_cons, lookup_cons, hk]
      split
      · simp [hg]
      · exact lookup_congr k ht

/-- An update of the entry of `k` is seen under `k` and nowhere else. -/
theorem lookup_modifyFirst {f : E → E} (hf : ∀ e, key (f e) = key e) (k k' : K) (l : List E) :
    lookup key k' (modifyFirst (fun e => decide (key e = some k)) f l)
      = if k' = k then (lookup key k l).map f else lookup key k' l := by
  induction l with
  | nil => simp [modifyFirst]
  | cons e l ih =>
    by_cases he : key e = some k
    · simp only [modifyFirst, he, decide_true, if_true, lookup_cons, hf]
      by_cases hk : k' = k
      · simp [hk]
      · have hne : (some k : Option K) ≠ some k' := fun h => hk (Option.some.inj h).symm
        simp [hk, hne]
    · simp only [modifyFirst, he, decide_false, Bool.false_eq_true, if_false, lookup_cons, ih]
      by_cases hk : k' = k
      · simp [hk, he]
      · simp [hk]

/-- The entry found is the one that is changed. -/
theorem modifyFirst_split {f : E → E} {k : K} {l : List E} {e : E}
    (h : lookup key k l = some e) :
    modifyFirst (fun e => decide (key e = some k)) f l
      = l.take (l.findIdx fun e => decide (key e = some k))
        ++ f e :: l.drop (l.findIdx (fun e => decide (key e = some k)) + 1) := by
  induction l with
  | nil => exact absurd h (by simp)
  | cons a l ih =>
    rw [lookup_cons] at h
    by_cases ha : key a = some k
    · rw [if_pos ha] at h
      cases h
      simp [modifyFirst, List.findIdx_cons, ha]
    · rw [if_neg ha] at h
      simp only [modifyFirst, List.findIdx_cons, ha, decide_false, Bool.false_eq_true, if_false,
        cond_false, List.take_succ_cons, List.drop_succ_cons, List.cons_append, ih h]

/-- Looking in the bucket of a key is looking in the whole table. -/
theorem lookup_bucket {h : K → Nat} {b : List (List E)} (hb : Placed key h b) {k : K}
    {l : List E} (hl : b[h k]? = some l) : lookup key k l = lookup key k b.flatten := by
  -- no entry outside the bucket answers to `k`
  have hout : ∀ j l', b[j]? = some l' → j ≠ h k → ∀ e ∈ l', key e ≠ some k := by
    intro j l' hj hne e he hk
    obtain ⟨k', hk', hj'⟩ := hb j l' hj e he
    rw [hk] at hk'
    cases hk'
    exact hne hj'.symm
  have hfront : lookup key k (b.take (h k)).flatten = none := by
    rw [lookup_eq_none]
    intro e he
    obtain ⟨l', hl', he⟩ := List.mem_flatten.mp he
    obtain ⟨j, hj⟩ := List.mem_iff_getElem?.mp hl'
    rw [List.getElem?_take] at hj
    split at hj
    next hlt => exact hout j l' hj (by omega) e he
    next => exact absurd hj (by simp)
  have hback : lookup key k (b.drop (h k + 1)).flatten = none := by
    rw [lookup_eq_none]
    intro e he
    obtain ⟨l', hl', he⟩ := List.mem_flatten.mp he
    obtain ⟨j, hj⟩ := List.mem_iff_getElem?.mp hl'
    rw [List.getElem?_drop] at hj
    exact hout _ l' hj (by omega) e he
  rw [flatten_split hl, lookup_append, lookup_append, hfront, hback]
  simp

end Lookup

end ChainedHash
