/-
  LightTable.Table.Sharing
  ────────────────────────
  Releasing a table that others may refer to.

  `grab` and `_release` count the references to a table: those of the client,
  and one for each place where the table is stored.  The last `_release`
  destroys the table, which releases every table stored in it.  While this
  goes on the counter of every live table is its number of references, the
  releases to come included (`Snapshot.Stands`).  So a release never finds a
  table that is gone, a table goes exactly when its last reference does, and
  what it held, down to the strings, is freed once (`releaseFuel_lets`).  No
  order of the stored tables and no shape of the graph matters: the tables of
  a cycle keep each other alive.
-/
import LightTable.Table.Ownership
import LightTable.Lib.Owners

namespace LightTable

open Finset Owners

variable {w w' w₁ : World} {L L' : Finset Addr} {c : Addr} {pending rest extra : List Addr}

/-! ## §1. What a table owns. -/

/-- The table that a value points to, if it is one. -/
def Value.pointers (v : Value) : List Addr := if v.type = .ud then [v.v] else []

/-- The tables stored in a map, place by place. -/
def LMap.pointers (m : LMap) : List Addr := m.entries.flatMap (fun n => n.v.pointers)

/-- What nodes hold: themselves, their key strings, and the strings behind
their values. -/
def World.nodeBlocks (w : World) (l : List Node) : List Addr :=
  l.flatMap (fun n => n.blocks ++ w.valueBlocks n.v)

theorem Value.pointers_ud {v : Value} (h : v.type = .ud) : v.pointers = [v.v] := if_pos h

theorem Value.pointers_plain {v : Value} (h : v.type ≠ .ud) : v.pointers = [] := if_neg h

theorem World.nodeBlocks_congr {l : List Node}
    (h : ∀ n ∈ l, n.v.type = .string → w'.lstrings n.v.v = w.lstrings n.v.v) :
    w'.nodeBlocks l = w.nodeBlocks l := by
  unfold World.nodeBlocks
  rw [List.flatMap_def, List.flatMap_def]
  congr 1
  apply List.map_congr_left
  intro n hn
  rw [World.valueBlocks_congr (h n hn)]

/-- The blocks of the nodes, apart from those of the strings. -/
theorem World.count_nodeBlocks (w : World) (m : LMap) (a : Addr) :
    (w.nodeBlocks m.entries).count a = (m.blocks ++ w.stringBlocks m).count a := by
  unfold World.nodeBlocks LMap.blocks World.stringBlocks
  induction m.entries with
  | nil => rfl
  | cons n l ih =>
    simp only [List.flatMap_cons, List.count_append] at ih ⊢
    omega

theorem World.mem_nodeBlocks {l : List Node} {n : Node} (hn : n ∈ l) {a : Addr}
    (ha : a ∈ n.blocks ++ w.valueBlocks n.v) : a ∈ w.nodeBlocks l :=
  List.mem_flatMap.mpr ⟨n, hn, ha⟩

/-- A string is held through its lstring and its slot. -/
theorem World.mem_valueBlocks {v : Value} (hty : v.type = .string) {slot : Addr}
    (hls : w.lstrings v.v = some ⟨slot⟩) : v.v ∈ w.valueBlocks v ∧ slot ∈ w.valueBlocks v := by
  rw [World.valueBlocks_string hty hls]
  exact ⟨List.mem_cons_self, List.mem_cons_of_mem _ List.mem_cons_self⟩

/-! ## §2. Tables that stand. -/

/-- The tables before any release: the table objects, their current maps, and
the blocks that each holds. -/
structure Snapshot where
  table : Addr → Table
  map : Addr → LMap
  blocks : Addr → List Addr

/-- The tables that a table stores. -/
def Snapshot.pointers (S : Snapshot) (x : Addr) : List Addr := (S.map x).pointers

variable {S : Snapshot}

/-- The table `x` is at rest with the counter `r`. -/
structure Snapshot.Rests (S : Snapshot) (w : World) (x : Addr) (r : Int) : Prop where
  table : w.tables x = some { S.table x with ref := r }
  map : (S.table x).maps (S.table x).map = some (S.map x)
  wf : (S.map x).Wf
  live : ∀ n ∈ (S.map x).entries, n.v.type = .string → w.Live n.v.v
  blocks : ∀ a, (S.blocks x).count a
    = (x :: (S.table x).map :: w.nodeBlocks (S.map x).entries).count a

/-- The tables `L` are at rest, each with its number of references as its
counter; they are those that have any.  No block is held twice; `extra` is held
by tables that are being destroyed. -/
structure Snapshot.Stands (S : Snapshot) (w : World) (L : Finset Addr) (pending extra : List Addr) :
    Prop where
  rest : ∀ x ∈ L, S.Rests w x (refs S.pointers L pending x)
  live : ∀ x, x ∈ L ↔ 0 < refs S.pointers L pending x
  small : ∀ x, refs S.pointers L pending x < 2147483648
  apart : ∀ a, ∑ x ∈ L, (S.blocks x).count a + extra.count a ≤ 1

/-- From the live tables `L` in `w` to the live tables `L'` in `w'`: the tables
that went are freed with all they held, and so is `held`. -/
structure Snapshot.Lets (S : Snapshot) (w : World) (L : Finset Addr) (held : List Addr) (w' : World)
    (L' : Finset Addr) : Prop where
  sub : L' ⊆ L
  brk : w'.brk = w.brk
  others : ∀ x, x ∉ L → w'.tables x = w.tables x
  gone : ∀ x ∈ L, x ∉ L' → w'.tables x = none
  strings : ∀ a, (∀ x ∈ L, x ∉ L' → a ∉ S.blocks x) → a ∉ held →
    w'.lstrings a = w.lstrings a ∧ w'.slots a = w.slots a
  lstrings : ∀ a ls, w'.lstrings a = some ls → w.lstrings a = some ls
  freed : ∀ a, w'.freed.count a + ∑ x ∈ L', (S.blocks x).count a
    = w.freed.count a + ∑ x ∈ L, (S.blocks x).count a + held.count a
  log : ∀ x, w'.destroyed.count x + (if x ∈ L' then 1 else 0)
    = w.destroyed.count x + if x ∈ L then 1 else 0

theorem Snapshot.Lets.refl (S : Snapshot) (w : World) (L : Finset Addr) : S.Lets w L [] w L where
  sub := Subset.refl L
  brk := rfl
  others := fun _ _ => rfl
  gone := fun _ hx hn => absurd hx hn
  strings := fun _ _ _ => ⟨rfl, rfl⟩
  lstrings := fun _ _ h => h
  freed := fun _ => rfl
  log := fun _ => rfl

theorem Snapshot.Lets.trans {w'' : World} {L'' : Finset Addr} {held held' : List Addr}
    (h₁ : S.Lets w L held w' L') (h₂ : S.Lets w' L' held' w'' L'') :
    S.Lets w L (held ++ held') w'' L'' where
  sub := h₂.sub.trans h₁.sub
  brk := h₂.brk.trans h₁.brk
  others := fun x hx => (h₂.others x (fun h => hx (h₁.sub h))).trans (h₁.others x hx)
  gone := by
    intro x hx hn
    by_cases hx' : x ∈ L'
    · exact h₂.gone x hx' hn
    · rw [h₂.others x hx']
      exact h₁.gone x hx hx'
  strings := by
    intro a hL hheld
    obtain ⟨h1, h1'⟩ := h₁.strings a (fun x hx hn => hL x hx (fun h => hn (h₂.sub h)))
      (fun h => hheld (List.mem_append_left _ h))
    obtain ⟨h2, h2'⟩ := h₂.strings a (fun x hx hn => hL x (h₁.sub hx) hn)
      (fun h => hheld (List.mem_append_right _ h))
    exact ⟨h2.trans h1, h2'.trans h1'⟩
  lstrings := fun a ls h => h₁.lstrings a ls (h₂.lstrings a ls h)
  freed := by
    intro a
    have := h₁.freed a
    have := h₂.freed a
    rw [List.count_append]
    omega
  log := by
    intro x
    have := h₁.log x
    have := h₂.log x
    omega

/-- What a live table holds is held by nobody else. -/
theorem Snapshot.Stands.not_extra (h : S.Stands w L pending extra) {x : Addr} (hx : x ∈ L)
    {a : Addr} (ha : a ∈ S.blocks x) : a ∉ extra := by
  intro he
  have hle := Finset.single_le_sum (f := fun x => (S.blocks x).count a) (fun _ _ => Nat.zero_le _) hx
  have hpos := List.count_pos_iff.mpr ha
  have hpos' := List.count_pos_iff.mpr he
  have hone := h.apart a
  omega

/-- The lstring and the slot of a stored string are among the blocks. -/
theorem Snapshot.Rests.string_mem {x : Addr} {r : Int} (h : S.Rests w x r) {n : Node}
    (hn : n ∈ (S.map x).entries) (hty : n.v.type = .string) {slot : Addr}
    (hls : w.lstrings n.v.v = some ⟨slot⟩) : n.v.v ∈ S.blocks x ∧ slot ∈ S.blocks x := by
  have hmem : ∀ a ∈ w.valueBlocks n.v, a ∈ S.blocks x := by
    intro a ha
    have hnode := World.mem_nodeBlocks hn (List.mem_append_right n.blocks ha)
    refine List.count_pos_iff.mp ?_
    rw [h.blocks a]
    exact List.count_pos_iff.mpr (List.mem_cons_of_mem _ (List.mem_cons_of_mem _ hnode))
  obtain ⟨h1, h2⟩ := World.mem_valueBlocks hty hls
  exact ⟨hmem _ h1, hmem _ h2⟩

/-- A table at rest whose strings are where they were. -/
theorem Snapshot.Rests.move {x : Addr} {r r' : Int} (h : S.Rests w x r)
    (htable : w'.tables x = some { S.table x with ref := r' })
    (hstr : ∀ a ∈ S.blocks x, w'.lstrings a = w.lstrings a ∧ w'.slots a = w.slots a) :
    S.Rests w' x r' := by
  have hls : ∀ n ∈ (S.map x).entries, n.v.type = .string → w'.lstrings n.v.v = w.lstrings n.v.v := by
    intro n hn hty
    obtain ⟨slot, sl, hslot, -⟩ := h.live n hn hty
    exact (hstr _ (h.string_mem hn hty hslot).1).1
  refine ⟨htable, h.map, h.wf, ?_, ?_⟩
  · intro n hn hty
    obtain ⟨slot, sl, hslot, hsl⟩ := h.live n hn hty
    exact ⟨slot, sl, (hls n hn hty).trans hslot, (hstr _ (h.string_mem hn hty hslot).2).2.trans hsl⟩
  · intro a
    rw [h.blocks a, World.nodeBlocks_congr hls]

/-- What happens outside the live tables leaves them standing. -/
theorem Snapshot.Stands.move (h : S.Stands w L pending extra) {extra' : List Addr}
    (htables : ∀ x ∈ L, w'.tables x = w.tables x)
    (hstr : ∀ a, a ∉ extra → w'.lstrings a = w.lstrings a ∧ w'.slots a = w.slots a)
    (hextra : ∀ a, extra'.count a ≤ extra.count a) : S.Stands w' L pending extra' where
  rest := by
    intro x hx
    have hrest := h.rest x hx
    exact hrest.move ((htables x hx).trans hrest.table)
      (fun a ha => hstr a (h.not_extra hx ha))
  live := h.live
  small := h.small
  apart := by
    intro a
    have := h.apart a
    have := hextra a
    omega

/-! ## §3. The nodes of a table that goes. -/

/-- A release that returns does what `Lets` says, when at most `k` tables are
live. -/
def Snapshot.Releases (S : Snapshot) (release : Addr → World → Option World) (k : Nat) : Prop :=
  ∀ (c : Addr) (w : World) (L : Finset Addr) (rest extra : List Addr),
    S.Stands w L (c :: rest) extra → L.card ≤ k →
    ∃ w' L', release c w = some w' ∧ S.Stands w' L' rest extra ∧ S.Lets w L [] w' L'

variable {release : Addr → World → Option World} {k : Nat}

/-- Freeing a node whose value is no table destroys none, and makes no
lstring. -/
theorem deleteNode_log (release : Addr → World → Option World) {n : Node} (href : n.v.ref = 1)
    (hud : n.v.type ≠ .ud) (hx : deleteNode release w n = some w') :
    w'.destroyed = w.destroyed ∧ ∀ a ls, w'.lstrings a = some ls → w.lstrings a = some ls := by
  rw [deleteNode_last release href] at hx
  obtain ⟨v, hv, rfl⟩ := Option.map_eq_some_iff.mp hx
  show v.destroyed = w.destroyed ∧ ∀ a ls, v.lstrings a = some ls → w.lstrings a = some ls
  by_cases hty : n.v.type = .string
  · unfold clearValue World.freeSlot World.freeLString at hv
    rw [hty] at hv
    obtain ⟨ls, -, hv⟩ := Option.bind_eq_some_iff.mp hv
    obtain ⟨v₁, hv₁, hv⟩ := Option.bind_eq_some_iff.mp hv
    obtain ⟨sl, -, hv₁⟩ := Option.bind_eq_some_iff.mp hv₁
    obtain ⟨ls', -, hv⟩ := Option.bind_eq_some_iff.mp hv
    cases hv₁
    cases hv
    refine ⟨rfl, ?_⟩
    intro a ls ha
    have ha : Function.update w.lstrings n.v.v none a = some ls := ha
    rw [Function.update_apply] at ha
    by_cases hav : a = n.v.v
    · rw [if_pos hav] at ha
      exact absurd ha (by simp)
    · rw [if_neg hav] at ha
      exact ha
  · rw [clearValue_plain release hty hud] at hv
    cases hv
    exact ⟨rfl, fun _ _ h => h⟩

/-- A node that holds the last use of its value. -/
theorem Snapshot.Releases.node (hrel : S.Releases release k) {n : Node} (href : n.v.ref = 1)
    (hlive : n.v.type = .string → w.Live n.v.v)
    (h : S.Stands w L (n.v.pointers ++ rest) ((n.blocks ++ w.valueBlocks n.v) ++ extra))
    (hk : L.card ≤ k) :
    ∃ w' L', deleteNode release w n = some w' ∧ S.Stands w' L' rest extra
      ∧ S.Lets w L (n.blocks ++ w.valueBlocks n.v) w' L' := by
  by_cases hud : n.v.type = .ud
  · -- a table is released
    have hnone : w.valueBlocks n.v = [] := World.valueBlocks_plain (by rw [hud]; decide) w
    rw [Value.pointers_ud hud] at h
    set v : World := { w with freed := (n.strkey.map Prod.fst).toList ++ w.freed } with hv
    have hstands : S.Stands v L (n.v.v :: rest) ((n.blocks ++ w.valueBlocks n.v) ++ extra) :=
      h.move (fun _ _ => rfl) (fun _ _ => ⟨rfl, rfl⟩) (fun _ => Nat.le_refl _)
    obtain ⟨v', L', hv', hs', hl'⟩ := hrel n.v.v v L rest _ hstands hk
    refine ⟨v'.free n.addr, L', ?_, ?_, ?_⟩
    · rw [deleteNode_last release href]
      unfold clearValue
      rw [hud]
      show (release n.v.v v).map _ = _
      rw [hv']
      rfl
    · refine hs'.move (fun _ _ => rfl) (fun _ _ => ⟨rfl, rfl⟩) ?_
      intro a
      rw [List.count_append]
      omega
    · refine ⟨hl'.sub, hl'.brk, hl'.others, hl'.gone, ?_, hl'.lstrings, ?_, hl'.log⟩
      · exact fun a hL _ => hl'.strings a hL (by simp)
      · intro a
        have hf := hl'.freed a
        have hcount : v.freed.count a
            = (n.strkey.map Prod.fst).toList.count a + w.freed.count a := List.count_append
        show (n.addr :: v'.freed).count a + _ = _
        rw [hnone, List.append_nil]
        unfold Node.blocks
        rw [List.count_nil] at hf
        simp only [List.count_cons]
        omega
  · -- a string is freed, and any other value is left
    rw [Value.pointers_plain hud, List.nil_append] at h
    obtain ⟨w', hw', hfreed, hls, hsl⟩ := deleteNode_clearable release ⟨href, hud, hlive⟩
    obtain ⟨hlog, hmade⟩ := deleteNode_log release href hud hw'
    have hstr : ∀ a, a ∉ n.blocks ++ w.valueBlocks n.v →
        w'.lstrings a = w.lstrings a ∧ w'.slots a = w.slots a := by
      intro a ha
      constructor
      · apply hls
        intro hty hav
        obtain ⟨slot, sl, hslot, -⟩ := hlive hty
        rw [hav] at ha
        exact ha (List.mem_append_right _ (World.mem_valueBlocks hty hslot).1)
      · apply hsl
        intro hty hslot
        exact ha (List.mem_append_right _ (World.mem_valueBlocks hty hslot).2)
    refine ⟨w', L, hw', ?_, Subset.refl L, hfreed.brk, ?_, fun _ hx hn => absurd hx hn, ?_, hmade, ?_, ?_⟩
    · refine h.move (fun x _ => by rw [hfreed.tables]) ?_ ?_
      · exact fun a ha => hstr a (fun hmem => ha (List.mem_append_left _ hmem))
      · intro a
        have hsum : (n.blocks ++ w.valueBlocks n.v ++ extra).count a
            = (n.blocks ++ w.valueBlocks n.v).count a + extra.count a := List.count_append
        omega
    · exact fun x _ => by rw [hfreed.tables]
    · exact fun a _ ha => hstr a ha
    · intro a
      have := hfreed.count a
      omega
    · intro x
      rw [hlog]

/-- What the tables that went held is not what is still held. -/
theorem Snapshot.Stands.strings_kept (h : S.Stands w L pending extra) {held : List Addr}
    (hl : S.Lets w L held w' L') {a : Addr} (ha : a ∈ extra) (hn : a ∉ held) :
    w'.lstrings a = w.lstrings a ∧ w'.slots a = w.slots a :=
  hl.strings a (fun _ hx _ hmem => h.not_extra hx hmem ha) hn

/-- The loop of `_delete_without_data`. -/
theorem Snapshot.Releases.nodes (hrel : S.Releases release k) :
    ∀ {l : List Node} {w : World} {L : Finset Addr},
      (∀ n ∈ l, n.v.ref = 1 ∧ (n.v.type = .string → w.Live n.v.v)) →
      S.Stands w L (l.flatMap (fun n => n.v.pointers) ++ rest) (w.nodeBlocks l ++ extra) →
      L.card ≤ k →
      ∃ w' L', l.foldlM (deleteNode release) w = some w' ∧ S.Stands w' L' rest extra
        ∧ S.Lets w L (w.nodeBlocks l) w' L'
  | [], w, L, _, h, _ => ⟨w, L, rfl, h, .refl S w L⟩
  | n :: l, w, L, hall, h, hk => by
      obtain ⟨href, hlive⟩ := hall n (by simp)
      have hblocks : w.nodeBlocks (n :: l) = (n.blocks ++ w.valueBlocks n.v) ++ w.nodeBlocks l :=
        List.flatMap_cons
      rw [List.flatMap_cons, List.append_assoc, hblocks, List.append_assoc] at h
      obtain ⟨w₁, L₁, hdel, hs₁, hl₁⟩ := hrel.node href hlive h hk
      -- the strings of the nodes to come are where they were
      have hkept : ∀ x ∈ l, ∀ a ∈ n.blocks ++ w.valueBlocks n.v, a ∉ x.blocks ++ w.valueBlocks x.v := by
        intro x hx a ha hax
        have hone := h.apart a
        have hpos := List.count_pos_iff.mpr ha
        have hpos' := List.count_pos_iff.mpr (World.mem_nodeBlocks hx hax)
        simp only [List.count_append] at hone hpos hpos'
        omega
      have hstr : ∀ x ∈ l, ∀ a ∈ w.valueBlocks x.v,
          w₁.lstrings a = w.lstrings a ∧ w₁.slots a = w.slots a := by
        intro x hx a ha
        have hmem : a ∈ w.nodeBlocks l := World.mem_nodeBlocks hx (List.mem_append_right _ ha)
        exact h.strings_kept hl₁ (List.mem_append_right _ (List.mem_append_left _ hmem))
          (fun hn => hkept x hx a hn (List.mem_append_right _ ha))
      have hls : ∀ x ∈ l, x.v.type = .string → w₁.lstrings x.v.v = w.lstrings x.v.v := by
        intro x hx hty
        obtain ⟨slot, sl, hslot, -⟩ := (hall x (by simp [hx])).2 hty
        exact (hstr x hx _ (World.mem_valueBlocks hty hslot).1).1
      have hsame : w₁.nodeBlocks l = w.nodeBlocks l := World.nodeBlocks_congr hls
      have hall₁ : ∀ x ∈ l, x.v.ref = 1 ∧ (x.v.type = .string → w₁.Live x.v.v) := by
        intro x hx
        obtain ⟨hxref, hxlive⟩ := hall x (by simp [hx])
        refine ⟨hxref, ?_⟩
        intro hty
        obtain ⟨slot, sl, hslot, hsl⟩ := hxlive hty
        exact ⟨slot, sl, (hls x hx hty).trans hslot,
          (hstr x hx _ (World.mem_valueBlocks hty hslot).2).2.trans hsl⟩
      rw [← hsame] at hs₁
      obtain ⟨w', L', hrun, hs', hl'⟩ := Snapshot.Releases.nodes hrel hall₁ hs₁
        (Nat.le_trans (Finset.card_le_card hl₁.sub) hk)
      refine ⟨w', L', ?_, hs', ?_⟩
      · rw [List.foldlM_cons, hdel]
        exact hrun
      · rw [hblocks, ← hsame]
        exact hl₁.trans hl'

/-! ## §4. Tables that go. -/

/-- The table `c` is about to be destroyed: nobody refers to it any more, and
what it stores will be released. -/
structure Snapshot.Dying (S : Snapshot) (w : World) (L : Finset Addr) (c : Addr)
    (rest extra : List Addr) : Prop where
  mem : c ∈ L
  rests : ∃ r, S.Rests w c r
  stands : S.Stands w (L.erase c) (S.pointers c ++ rest) (S.blocks c ++ extra)

theorem Snapshot.Stands.mem_pending (h : S.Stands w L (c :: rest) extra) : c ∈ L := by
  rw [h.live, refs_cons, if_pos rfl]
  exact Nat.succ_pos _

/-- The last reference is let go. -/
theorem Snapshot.Stands.dying (h : S.Stands w L (c :: rest) extra)
    (hlast : refs S.pointers L rest c = 0) : S.Dying w L c rest extra := by
  have hc := h.mem_pending
  have hrefs : ∀ x, x ≠ c → refs S.pointers (L.erase c) (S.pointers c ++ rest) x
      = refs S.pointers L (c :: rest) x := by
    intro x hx
    rw [refs_erase hc, refs_cons, if_neg (Ne.symm hx)]
    rfl
  refine ⟨hc, ⟨_, h.rest c hc⟩, ?_, ?_, ?_, ?_⟩
  · intro x hx
    rw [hrefs x (Finset.ne_of_mem_erase hx)]
    exact h.rest x (Finset.mem_of_mem_erase hx)
  · intro x
    by_cases hxc : x = c
    · have hzero : refs S.pointers (L.erase c) (S.pointers c ++ rest) c = 0 := by
        rw [refs_erase hc]
        exact hlast
      rw [hxc, hzero]
      exact ⟨fun hx => absurd hx (Finset.notMem_erase c L), fun hx => absurd hx (Nat.lt_irrefl 0)⟩
    · rw [hrefs x hxc, Finset.mem_erase, ← h.live]
      exact ⟨fun hx => hx.2, fun hx => ⟨hxc, hx⟩⟩
  · intro x
    have hsmall := h.small x
    rw [refs_cons] at hsmall
    rw [refs_erase hc]
    omega
  · intro a
    have hone := h.apart a
    rw [sum_erase hc] at hone
    rw [List.count_append]
    omega

/-- Writing the object of `c` leaves the others. -/
theorem Snapshot.Stands.putTable (h : S.Stands w (L.erase c) pending extra) (tb : Table) :
    S.Stands (w.putTable c tb) (L.erase c) pending extra :=
  h.move (fun _ hx => World.putTable_tables_ne w (Finset.ne_of_mem_erase hx) tb)
    (fun _ _ => ⟨rfl, rfl⟩) (fun _ => Nat.le_refl _)

/-- `delete` of a table: it goes, with what it held. -/
theorem Snapshot.Releases.deleteTable (hrel : S.Releases release k)
    (h : S.Dying w L c rest extra) (hk : L.card ≤ k + 1) :
    ∃ w' L', deleteTable release c w = some w' ∧ c ∉ L' ∧ S.Stands w' L' rest extra
      ∧ S.Lets w L [] w' L' := by
  obtain ⟨r, hr⟩ := h.rests
  -- the destructor has let go of the map, and the map of its nodes
  set w₁ : World := w.putTable c { (S.table c).dropMap (S.table c).map with ref := 0 } with hw₁
  have hsame : w₁.nodeBlocks (S.map c).entries = w.nodeBlocks (S.map c).entries := rfl
  have hcount : ∀ a, (S.blocks c).count a
      = (c :: (S.table c).map :: w₁.nodeBlocks (S.map c).entries).count a := hr.blocks
  have hstands : S.Stands w₁ (L.erase c) ((S.map c).entries.flatMap (fun n => n.v.pointers) ++ rest)
      (w₁.nodeBlocks (S.map c).entries ++ (c :: (S.table c).map :: extra)) := by
    refine (h.stands.putTable _).move (fun _ _ => rfl) (fun _ _ => ⟨rfl, rfl⟩) ?_
    intro a
    have hca := hcount a
    rw [List.count_append, List.count_append]
    simp only [List.count_cons] at hca ⊢
    omega
  have hcard : (L.erase c).card ≤ k := by
    rw [Finset.card_erase_of_mem h.mem]
    omega
  have hnodes : ∀ n ∈ (S.map c).entries, n.v.ref = 1 ∧ (n.v.type = .string → w₁.Live n.v.v) :=
    fun n hn => ⟨hr.wf.vref n hn, hr.live n hn⟩
  obtain ⟨w₂, L', hrun, hs₂, hl₂⟩ := hrel.nodes hnodes hstands hcard
  have hcL' : c ∉ L' := fun hc => absurd (hl₂.sub hc) (Finset.notMem_erase c L)
  -- the object of the table is still there
  have htable : w₂.tables c = some { (S.table c).dropMap (S.table c).map with ref := 0 } := by
    rw [hl₂.others c (Finset.notMem_erase c L)]
    exact World.putTable_tables_self _ _ _
  set w' : World := ({ w₂.free (S.table c).map with
    tables := Function.update w₂.tables c none, destroyed := c :: w₂.destroyed } : World).free c
    with hw'
  have hother : ∀ x, x ≠ c → w'.tables x = w₂.tables x := fun x hx => Function.update_of_ne hx ..
  refine ⟨w', L', ?_, hcL', ?_, hl₂.sub.trans (Finset.erase_subset c L), hl₂.brk, ?_, ?_, ?_,
    hl₂.lstrings, ?_, ?_⟩
  · unfold LightTable.deleteTable deleteMap deleteWithoutData
    simp only [hr.table, hr.map, Option.bind_eq_bind, Option.bind_some, hr.wf.take_data]
    show (((S.map c).entries.foldlM (deleteNode release) w₁).bind _).bind _ = _
    rw [hrun]
    show (w₂.tables c).bind _ = _
    rw [htable]
    rfl
  · refine hs₂.move ?_ (fun _ _ => ⟨rfl, rfl⟩) ?_
    · exact fun x hx => hother x (fun hxc => hcL' (by rw [← hxc]; exact hx))
    · intro a
      rw [List.count_cons, List.count_cons]
      omega
  · intro x hx
    have hxc : x ≠ c := fun hxc => hx (by rw [hxc]; exact h.mem)
    rw [hother x hxc, hl₂.others x (fun hmem => hx (Finset.mem_of_mem_erase hmem))]
    exact World.putTable_tables_ne w hxc _
  · intro x hx hn
    by_cases hxc : x = c
    · rw [hxc]
      exact Function.update_self ..
    · rw [hother x hxc]
      exact hl₂.gone x (Finset.mem_erase.mpr ⟨hxc, hx⟩) hn
  · intro a ha _
    have hac : a ∉ w₁.nodeBlocks (S.map c).entries := by
      intro hmem
      refine ha c h.mem hcL' (List.count_pos_iff.mp ?_)
      rw [hcount a]
      exact List.count_pos_iff.mpr (List.mem_cons_of_mem _ (List.mem_cons_of_mem _ hmem))
    exact hl₂.strings a (fun x hx hn => ha x (Finset.mem_of_mem_erase hx) hn) hac
  · intro a
    have hf := hl₂.freed a
    have hca := hcount a
    have hfreed : w₁.freed = w.freed := rfl
    show (c :: (S.table c).map :: w₂.freed).count a + _ = _
    rw [hfreed] at hf
    rw [sum_erase h.mem, List.count_nil]
    simp only [List.count_cons] at hca ⊢
    omega
  · intro x
    -- it is logged after the tables that it held
    have hlog : w₂.destroyed.count x + (if x ∈ L' then 1 else 0)
        = w.destroyed.count x + if x ∈ L.erase c then 1 else 0 := hl₂.log x
    have hmem := mem_erase_count h.mem x
    show (c :: w₂.destroyed).count x + _ = _
    rw [List.count_cons]
    simp only [beq_iff_eq]
    omega

/-- A counter in range is let down by one. -/
theorem asInt_pred {r : Nat} (h0 : 0 < r) (h1 : r < 2147483648) :
    asInt ((r : Int) - 1) = ((r - 1 : Nat) : Int) := by
  unfold asInt
  omega

/-- `_release`, however deep the tables are nested and wherever else they are
stored. -/
theorem releaseFuel_lets (S : Snapshot) : ∀ k, S.Releases (releaseFuel k) k := by
  intro k
  induction k with
  | zero =>
    intro c w L rest extra h hk
    have hpos := Finset.card_pos.mpr ⟨c, h.mem_pending⟩
    omega
  | succ k ih =>
    intro c w L rest extra h hk
    have hc := h.mem_pending
    have hr := h.rest c hc
    have hcons := refs_cons S.pointers L c rest c
    rw [if_pos rfl] at hcons
    have hpred := asInt_pred (by omega : 0 < refs S.pointers L (c :: rest) c) (h.small c)
    have hsub : refs S.pointers L (c :: rest) c - 1 = refs S.pointers L rest c := by omega
    rw [hsub] at hpred
    unfold releaseFuel
    simp only [hr.table, Option.bind_eq_bind, Option.bind_some, hpred]
    by_cases hlast : refs S.pointers L rest c = 0
    · -- the last reference: the table is destroyed
      rw [hlast, if_neg (by decide)]
      have hd := h.dying hlast
      have hd₀ : S.Dying (w.putTable c { S.table c with ref := 0 }) L c rest extra :=
        ⟨hc, ⟨0, hr.move (World.putTable_tables_self _ _ _) (fun _ _ => ⟨rfl, rfl⟩)⟩,
          hd.stands.putTable _⟩
      obtain ⟨w', L', hdel, hcL', hs', hl'⟩ := ih.deleteTable hd₀ hk
      refine ⟨w', L', hdel, hs', hl'.sub, hl'.brk, ?_, hl'.gone, hl'.strings, hl'.lstrings,
        hl'.freed, hl'.log⟩
      intro x hx
      rw [hl'.others x hx]
      exact World.putTable_tables_ne w (fun hxc => hx (by rw [hxc]; exact hc)) _
    · rw [if_pos (by simpa using hlast)]
      refine ⟨_, L, rfl, ⟨?_, ?_, ?_, h.apart⟩, Subset.refl L, rfl, ?_,
        fun _ hx hn => absurd hx hn, fun _ _ _ => ⟨rfl, rfl⟩, fun _ _ h => h, fun _ => rfl,
        fun _ => rfl⟩
      · intro x hx
        by_cases hxc : x = c
        · rw [hxc]
          exact hr.move (World.putTable_tables_self _ _ _) (fun _ _ => ⟨rfl, rfl⟩)
        · have hrest := h.rest x hx
          rw [refs_cons, if_neg (Ne.symm hxc)] at hrest
          exact hrest.move ((World.putTable_tables_ne w hxc _).trans hrest.table)
            (fun _ _ => ⟨rfl, rfl⟩)
      · intro x
        by_cases hxc : c = x
        · rw [← hxc]
          exact ⟨fun _ => Nat.pos_of_ne_zero hlast, fun _ => hc⟩
        · have hlive := h.live x
          rw [refs_cons, if_neg hxc] at hlive
          exact hlive
      · intro x
        have hsmall := h.small x
        rw [refs_cons] at hsmall
        omega
      · exact fun x hx => World.putTable_tables_ne w (fun hxc => hx (by rw [hxc]; exact hc)) _

end LightTable
