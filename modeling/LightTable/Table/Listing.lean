/-
  LightTable.Table.Listing
  ────────────────────────
  The order of the keys after a setter call, and what the other keys show.

  A call that does not make the map grow keeps every chain and may link one
  node at a tail; a growth walks the chains and links each copy at a head, so
  an index of the grown map lists its keys last first (`LMap.Effect.listing`).
-/
import LightTable.Table.Growth

namespace LightTable

open ChainedHash

variable {w w' : World} {t : Addr} {tb : Table} {m m' : LMap} {c : SetCall} {key key' : Key}

/-! ## §1. The order of the keys after a call. -/

/-- The keys of all chains after an insert of `key`, before any expansion. -/
def LMap.walked (m : LMap) (key : Key) : List (Option Key) :=
  (List.range m.size.toNat).flatMap (m.keysIn key)

/-- The bucket count after a call. -/
def LMap.sizeAfter (m : LMap) (c : SetCall) : Int :=
  if m.Expands c then m.size * 2 else m.size

/-- The keys that the nodes store after a call, in the order of the double loop.
An index of a grown map has the keys that hash to it, last first. -/
def LMap.listing (m : LMap) (c : SetCall) : List (Option Key) :=
  if m.Expands c then
    (List.range (m.size * 2).toNat).flatMap (fun i =>
      ((m.walked c.key).filter (fun k => decide (k.map (bucket (m.size * 2)) = some i))).reverse)
  else m.walked c.key

theorem LMap.Sized.entries_eq (hm : m.Sized) :
    m.entries = (List.range m.size.toNat).flatMap m.chainAt := by
  unfold LMap.entries
  rw [flatten_eq_range, hm.length]
  rfl

/-- The stored keys, one chain after the other. -/
theorem LMap.Sized.storedKeys_eq (hm : m.Sized) :
    m.entries.map Node.storedKey
      = (List.range m.size.toNat).flatMap (fun i => (m.chainAt i).map Node.storedKey) := by
  rw [hm.entries_eq, List.map_flatMap]

theorem LMap.Sized.storedKeys_inserted (hm : m.Sized) (brk : Addr) (key : Key) (v : Value) :
    (m.inserted brk key v).entries.map Node.storedKey = m.walked key := by
  have hs : (m.inserted brk key v).Sized := by
    cases h : m.find key with
    | some n =>
      rw [LMap.inserted_found h]
      exact hm.setChain key _
    | none =>
      rw [LMap.inserted_absent h]
      have hset := hm.setChain key ((m.chain key).getD [] ++ [freshNode brk key v])
      exact ⟨hset.pos, hset.lt, hset.length⟩
  rw [hs.storedKeys_eq, LMap.inserted_size]
  exact List.flatMap_congr (fun i _ => hm.keysIn_inserted brk key v i)

/-- Where nothing is inserted the keys stay. -/
theorem LMap.Sized.walked_found (hm : m.Sized) {n : Node} (hn : m.find key = some n) :
    m.walked key = m.entries.map Node.storedKey := by
  rw [hm.storedKeys_eq]
  refine List.flatMap_congr ?_
  intro i _
  unfold LMap.keysIn
  rw [hn, if_neg (by simp), List.append_nil]

/-- A doubled map lists the keys index by index, last first. -/
theorem LMap.Wf.storedKeys_doubled {nm old : LMap} {brk brk' : Addr} (hm : m.Wf) (hr : m.Ready)
    (h : m.doubled brk = some (nm, old, brk')) :
    nm.entries.map Node.storedKey
      = (List.range (m.size * 2).toNat).flatMap (fun i =>
          ((m.entries.map Node.storedKey).filter
            (fun k => decide (k.map (bucket (m.size * 2)) = some i))).reverse) := by
  obtain ⟨nm', b, heq, -, hwf, hsize, -⟩ := hm.doubled_spec hr.room hr.keys brk
  rw [h] at heq
  cases heq
  rw [hwf.toSized.storedKeys_eq, hsize]
  refine List.flatMap_congr ?_
  intro i _
  -- the stored keys are the first part of the contents
  have hchain := congrArg (List.map Prod.fst) (hm.doubled_chains hr h i)
  rw [List.map_reverse, List.map_map, List.map_map] at hchain
  rw [List.filter_map]
  exact hchain

/-- What a call makes of the bucket count and of the order of the keys. -/
theorem LMap.Effect.listing (h : m.Effect c m') (hm : m.Wf) :
    m'.size = m.sizeAfter c ∧ m'.entries.map Node.storedKey = m.listing c := by
  unfold LMap.sizeAfter LMap.listing
  cases h with
  | same hi hm' =>
    have hexp : ¬ m.Expands c := fun hx => hi hx.1
    rw [hm', if_neg hexp, if_neg hexp]
    refine ⟨rfl, ?_⟩
    cases hf : m.find c.key with
    | none => exact absurd (fun _ => LMap.typeAt_absent hf) hi
    | some n => exact (hm.toSized.walked_found hf).symm
  | inserted hi brk v hv hg hr =>
    have hwf := hm.inserted c.key brk hv.type_ne_nil
    rcases hg with ⟨hd, rfl⟩ | ⟨hd, b, old, b', heq⟩
    · have hexp : ¬ m.Expands c := fun hx => hd hx.2
      rw [if_neg hexp, if_neg hexp]
      exact ⟨LMap.inserted_size brk v, hm.toSized.storedKeys_inserted brk c.key v⟩
    · have hexp : m.Expands c := ⟨hi, hd⟩
      rw [if_pos hexp, if_pos hexp]
      have hkeys := hwf.storedKeys_doubled (hr hd) heq
      rw [LMap.inserted_size, hm.toSized.storedKeys_inserted] at hkeys
      obtain ⟨nm, b₁, heq', -, -, hsize, -⟩ := hwf.doubled_spec (hr hd).room (hr hd).keys b
      rw [heq] at heq'
      cases heq'
      rw [LMap.inserted_size] at hsize
      exact ⟨hsize, hkeys⟩

/-! ## §2. The other keys. -/

/-- What the keys show after an insert. -/
theorem World.Sound.readBack_inserted (h : w.Sound t tb m) {val : Value} (hvt : val.type ≠ .nil)
    {ty : LType} (hins : w.insertTable t key val = some (ty, w')) (hfit : key.Fits)
    (hne : key' ≠ key) :
    w'.readBack t key' = some (w.showsNode (m.answer (maxHashDepth ≤ m.depth key) key')) := by
  obtain ⟨-, hframe, tb', m', hsound', hgrown, hready⟩ := h.insertTable hvt hins
  have hfind := (h.wf.inserted key w.brk hvt).find_grown hgrown hready key'
  rw [h.wf.answer_inserted (hfit.stored_ne hne)] at hfind
  rw [hsound'.readBack, World.showsNode_frame hframe, w.showsNode_congr hfind]

end LightTable
