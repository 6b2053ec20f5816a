/-
  LightTable.Table.NumericKeys
  ────────────────────────────
  Tables with numeric keys over the whole `size_t`.

  The node narrows the index to an `int`.  An index that is the sign extension
  of an `int` comes back unchanged; any other index is never found again, and
  every set on it links one more node.

  For indices that fit no bound on the bucket count is needed: there are only
  2^32 of them, so at 29 * 2^26 buckets, the largest `int` size, no bucket can
  hold the seven nodes that make an insert expand.
-/
import LightTable.Table.Enumerate
import Mathlib.Data.List.Perm.Subperm

namespace LightTable

open ChainedHash

variable {w : World} {t : Addr} {tb : Table} {m : LMap}

/-! ## §1. The largest map. -/

/-- At most four indices that fit an `int` share a bucket of the largest map:
their quotients are 0, 1, 9478548514 or 9478548515. -/
theorem length_of_residue {l : List Nat} (hn : l.Nodup) (r : Nat)
    (hl : ∀ i ∈ l, i % 1946157056 = r ∧ (i < 2147483648
      ∨ (18446744071562067968 ≤ i ∧ i < 18446744073709551616))) : l.length ≤ 4 := by
  have hmap : (l.map (fun i => i / 1946157056)).Nodup := by
    refine List.Nodup.map_on ?_ hn
    intro i hi j hj hij
    have := (hl i hi).1
    have := (hl j hj).1
    omega
  have hsub : l.map (fun i => i / 1946157056) ⊆ [0, 1, 9478548514, 9478548515] := by
    intro q hq
    obtain ⟨i, hi, rfl⟩ := List.mem_map.mp hq
    have hfit := (hl i hi).2
    have hcases : i / 1946157056 = 0 ∨ i / 1946157056 = 1 ∨ i / 1946157056 = 9478548514
        ∨ i / 1946157056 = 9478548515 := by omega
    simpa using hcases
  have hle := (List.Nodup.subperm hmap hsub).length_le
  simpa using hle

/-- The bucket of a numeric key. -/
theorem bucket_num {size : Int} (h0 : 0 < size) (h1 : size < 2147483648) (idx : UInt64) :
    bucket size (.num idx) = idx.toNat % size.toNat := by
  have hs : asSize size = size.toNat := asSize_of_nonneg (by omega) (by omega)
  have hlt := Nat.mod_lt idx.toNat (show 0 < size.toNat by omega)
  show (UInt32.ofNat (idx.toNat % asSize size)).toNat = _
  rw [hs, UInt32.toNat_ofNat', Nat.mod_eq_of_lt (by omega)]

/-- In a map of numeric keys an insert that walks seven nodes finds room to
double. -/
theorem LMap.Inv.canGrow_of_depth (hm : m.Inv)
    (hnum : ∀ n ∈ m.entries, ∃ idx, n.storedKey = some (.num idx)) {key : Key}
    (hd : maxHashDepth ≤ m.depth key) : m.CanGrow := by
  by_contra hgrow
  have hsize := hm.toWf.size_of_not_canGrow hgrow
  obtain ⟨c, hc⟩ := hm.toSized.chain key
  -- the keys of the chain are distinct indices in one residue class
  have hkeys : ∀ k ∈ c.filterMap Node.storedKey, ∃ idx : UInt64, k = .num idx
      ∧ idx.toNat % 1946157056 = bucket m.size key ∧ (idx.toNat < 2147483648
        ∨ (18446744071562067968 ≤ idx.toNat ∧ idx.toNat < 18446744073709551616)) := by
    intro k hk
    obtain ⟨n, hn, hnk⟩ := List.mem_filterMap.mp hk
    have hmem := LMap.mem_entries hc hn
    obtain ⟨idx, hs⟩ := hnum n hmem
    obtain ⟨k', hk', hb⟩ := hm.placed_chain hc n hn
    rw [hs] at hk' hnk
    cases hk'
    cases hnk
    refine ⟨idx, rfl, ?_, (Key.fits_iff _).mp ((hm.node n hmem).storedKey_fits hs)⟩
    rw [← hb, bucket_num hm.pos hm.lt, hsize]
    rfl
  have hnodup : ((c.filterMap Node.storedKey).map Key.szIdx).Nodup := by
    obtain ⟨hi, hci⟩ := List.getElem?_eq_some_iff.mp hc
    have hsub : c.Sublist m.entries :=
      List.sublist_flatten_of_mem (by rw [← hci]; exact List.getElem_mem hi)
    refine List.Nodup.map_on ?_ (hm.nodup.sublist (List.Sublist.filterMap _ hsub))
    intro k₁ hk₁ k₂ hk₂ heq
    obtain ⟨i₁, rfl, -⟩ := hkeys k₁ hk₁
    obtain ⟨i₂, rfl, -⟩ := hkeys k₂ hk₂
    exact congrArg Key.num (UInt64.toNat_inj.mp heq)
  have hbound := length_of_residue hnodup (bucket m.size key) (by
    intro i hi
    obtain ⟨k, hk, rfl⟩ := List.mem_map.mp hi
    obtain ⟨idx, rfl, hr, hf⟩ := hkeys k hk
    exact ⟨hr, hf⟩)
  have hlen : (c.filterMap Node.storedKey).length = c.length := by
    rw [List.length_filterMap_eq_countP, List.countP_eq_length]
    intro n hn
    obtain ⟨idx, hs⟩ := hnum n (LMap.mem_entries hc hn)
    rw [hs]
    rfl
  have hdepth : m.depth key ≤ c.length := by
    unfold LMap.depth
    rw [hc]
    exact List.findIdx_le_length
  rw [List.length_map, hlen] at hbound
  unfold maxHashDepth at hd
  omega

/-! ## §2. Runs with indices that fit. -/

/-- On a table of numeric keys a call never asks for too many buckets. -/
theorem World.Rep.bucketsAsked_lt {s : Store} (h : w.Rep t s tb m)
    (hnum : ∀ key a, s key = some a → ∃ idx, key = .num idx) (c : SetCall) :
    w.bucketsAsked t c < 2147483648 := by
  have hlt := h.inv.toWf.lt
  have hentries : ∀ n ∈ m.entries, ∃ idx, n.storedKey = some (.num idx) := by
    intro n hn
    obtain ⟨key, a, hk, ha, -⟩ := h.of_node hn
    obtain ⟨idx, rfl⟩ := hnum key a ha
    exact ⟨idx, hk⟩
  unfold World.bucketsAsked grownSize
  rw [h.toOwns.current]
  show (if c.arg.type = .string ∧ m.typeAt c.key ≠ .nil then m.size
    else if maxHashDepth ≤ m.depth c.key then m.size * 2 else m.size) < 2147483648
  split
  · exact hlt
  · split
    next hd => exact h.inv.canGrow_of_depth hentries hd
    next => exact hlt

theorem lastSet_num {calls : List SetCall} (hnum : ∀ c ∈ calls, ∃ idx, c.key = .num idx) :
    ∀ key a, lastSet calls key = some a → ∃ idx, key = .num idx := by
  intro key a ha
  obtain ⟨c, hc, rfl, -⟩ := lastSet_mem ha
  exact hnum c hc

/-- Consistent calls with indices that fit give 0 throughout, and the table
represents the last values. -/
theorem World.Rep.setAll_num {w₀ : World} {m₀ : LMap} (h : w₀.Rep t Store.empty tb m₀) :
    ∀ (calls : List SetCall), (∀ c ∈ calls, ∃ idx, c.key = .num idx) →
      (∀ c ∈ calls, c.key.Fits) → Consistent calls →
      ∃ rs w tb' m', w₀.setAll t calls = some (rs, w) ∧ w.Rep t (lastSet calls) tb' m' := by
  intro calls
  induction calls using List.reverseRecOn with
  | nil => exact fun _ _ _ => ⟨[], w₀, tb, m₀, rfl, h⟩
  | append_singleton pre c ih =>
    intro hnum hfit htypes
    obtain ⟨rs₁, w₁, tb₁, m₁, hpre, hrep⟩ := ih (fun c' hc' => hnum c' (by simp [hc']))
      (fun c' hc' => hfit c' (by simp [hc']))
      (htypes.sublist (List.sublist_append_left _ _))
    have hb := hrep.bucketsAsked_lt (lastSet_num (fun c' hc' => hnum c' (by simp [hc']))) c
    obtain ⟨w', tb', m', heq, hrep', -⟩ := hrep.set (hfit c (by simp)) htypes.accepts hb
    rw [← lastSet_snoc] at hrep'
    exact ⟨rs₁ ++ [0], w', tb', m', (Run.run_snoc_some _).mpr ⟨rs₁, w₁, 0, hpre, heq, rfl⟩, hrep'⟩

/-! ## §3. The result. -/

/-- Numeric keys are kept apart in a state: every key reads as its last value,
there is one node a key, and no node answers to two keys. -/
def World.KeepsApart (w : World) (t : Addr) (calls : List SetCall) : Prop :=
  (∀ idx, w.ReadsAs t (.num idx) (lastSet calls (.num idx)))
    ∧ ∃ m, w.current t = some m ∧ m.entries.length = (distinctKeys calls).length
      ∧ ∀ n ∈ m.entries, ∀ i j, isInHash (.num i) n = true → isInHash (.num j) n = true → i = j

theorem isInHash_num {n : Node} {i j : UInt64} (hi : isInHash (.num i) n = true)
    (hj : isInHash (.num j) n = true) : i = j := by
  simp only [isInHash, Bool.and_eq_true, beq_iff_eq] at hi hj
  exact UInt64.toNat_inj.mp (hi.2.symm.trans hj.2)

/-- A consistent run of sets with numeric keys keeps them apart in every state
exactly when every index fits an `int`. -/
theorem keepsApart_iff {w₀ : World} {calls : List SetCall} (hw : w.Tidy)
    (hnew : w.newTable = some (t, w₀)) (hnum : ∀ c ∈ calls, ∃ idx, c.key = .num idx)
    (htypes : Consistent calls) :
    (∀ pre, pre <+: calls → ∃ rs w', w₀.setAll t pre = some (rs, w') ∧ w'.KeepsApart t pre)
      ↔ ∀ c ∈ calls, c.key.Fits := by
  obtain ⟨tb₀, hrep₀⟩ := World.Rep.newTable hnew
  obtain ⟨tb₁, hsound₀⟩ := World.Sound.newTable hw hnew
  constructor
  · intro h c hc
    by_contra hfit
    -- after the set on `c` its key would have to read as the value set
    obtain ⟨pre, post, rfl⟩ := List.append_of_mem hc
    obtain ⟨rs, w', hrun, hreads, -⟩ := h (pre ++ [c]) ⟨post, by simp⟩
    obtain ⟨tb', m', hsound⟩ := hsound₀.setAll hrun
    obtain ⟨idx, hidx⟩ := hnum c hc
    have hread := hreads idx
    rw [lastSet_snoc, ← hidx, Store.put_self] at hread
    obtain ⟨v, hv⟩ := (hread .blank).1
    have hview : m'.view c.key = none := by
      unfold LMap.view
      rw [hsound.wf.find_of_not_fits hfit]
      rfl
    rw [hsound.toOwns.getType hsound.wf, hview] at hv
    have hty : LType.nil = c.arg.type := congrArg (fun x => x.1.1) (Option.some.inj hv)
    exact c.arg.type_ne_nil hty.symm
  · intro hfit pre hpre
    obtain ⟨rs, w', tb', m', hrun, hrep⟩ := hrep₀.setAll_num pre
      (fun c hc => hnum c (hpre.subset hc)) (fun c hc => hfit c (hpre.subset hc))
      (htypes.sublist hpre.sublist)
    refine ⟨rs, w', hrun, fun idx => hrep.readsAs (.num idx), m', hrep.toOwns.current, ?_, ?_⟩
    · simpa using hrep.keys_perm.length_eq
    · intro n _ i j hi hj
      exact isInHash_num hi hj

/-- The theorem at two calls on one key. -/
theorem keepsApart_iff_two :
    ∃ t w₀, World.empty.newTable = some (t, w₀)
      ∧ ((∀ pre, pre <+: [⟨.num 1, .number 5, .blank⟩, ⟨.num 1, .number 6, .blank⟩] →
          ∃ rs w', w₀.setAll t pre = some (rs, w') ∧ w'.KeepsApart t pre)
        ↔ ∀ c ∈ [(⟨.num 1, .number 5, .blank⟩ : SetCall), ⟨.num 1, .number 6, .blank⟩],
            c.key.Fits) := by
  have hsome : World.empty.newTable.isSome = true := by decide
  obtain ⟨⟨t, w₀⟩, hnew⟩ := Option.isSome_iff_exists.mp hsome
  exact ⟨t, w₀, hnew, keepsApart_iff World.empty_tidy hnew (by simp) (by decide)⟩

/-- The index 2^31 set twice: it reads `LT_NIL`, and there are two nodes. -/
theorem bigIndex_lost :
    ∃ t w₀ w₁, World.empty.newTable = some (t, w₀)
      ∧ w₀.setAll t [⟨.num 2147483648, .number 5, .blank⟩, ⟨.num 2147483648, .number 6, .blank⟩]
          = some ([0, 0], w₁)
      ∧ w₁.typeOf t (.num 2147483648) = .nil
      ∧ (w₁.current t).map (fun m => m.entries.length) = some 2
      ∧ ¬ w₁.KeepsApart t
          [⟨.num 2147483648, .number 5, .blank⟩, ⟨.num 2147483648, .number 6, .blank⟩] := by
  have hall : (World.empty.newTable.bind fun p =>
      (p.2.setAll p.1 [⟨.num 2147483648, .number 5, .blank⟩,
        ⟨.num 2147483648, .number 6, .blank⟩]).map fun q =>
          (q.1, q.2.typeOf p.1 (.num 2147483648),
            (q.2.current p.1).map (fun m => m.entries.length)))
      = some ([0, 0], .nil, some 2) := by decide
  obtain ⟨⟨t, w₀⟩, hnew, hall⟩ := Option.bind_eq_some_iff.mp hall
  obtain ⟨⟨rs, w₁⟩, hrun, hall⟩ := Option.map_eq_some_iff.mp hall
  simp only [Prod.mk.injEq] at hall
  obtain ⟨rfl, hnil, htwo⟩ := hall
  refine ⟨t, w₀, w₁, hnew, hrun, hnil, htwo, ?_⟩
  rintro ⟨-, m, hm, hlen, -⟩
  rw [hm] at htwo
  have htwo : m.entries.length = 2 := Option.some.inj htwo
  rw [htwo] at hlen
  exact absurd hlen (by decide)

end LightTable
