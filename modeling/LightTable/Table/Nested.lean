/-
  LightTable.Table.Nested
  ───────────────────────
  Tables stored in tables.

  `set_ud` stores the pointer to a table and does not grab the table, whose
  counter stays at the 1 of its constructor.  `lighttable.delete` destroys a
  table at once; its destructor releases every table that is stored in it, and
  each release takes the counter to 0 and destroys that table too.  So a table
  is destroyed exactly once if it is stored in at most one place, and a second
  place leads to a release of a destroyed table.

  The proofs follow one balance: a release removes one reference and, when it
  destroys a table, turns the places of that table into releases to come
  (`Destroyed.balance`).
-/
import LightTable.Table.Reach
import LightTable.Lib.Owners
import Mathlib.Data.Finset.Card

namespace LightTable

open Finset

/-! ## §1. Runs. -/

/-- The memory, and the tables created so far. -/
structure NestState where
  w : World
  made : List Addr

/-- A step: create a table, or store the table `u` in the table `t`; `tmp` is
what the local of `set_ud` holds. -/
inductive NestStep where
  | create
  | store (t : Addr) (key : Key) (u : Addr) (tmp : Value)

/-- One step. -/
def NestState.step (s : NestState) : NestStep → Option (Unit × NestState)
  | .create => do
      let (t, w) ← s.w.newTable
      return ((), { w := w, made := t :: s.made })
  | .store t key u tmp => do
      let (_, w) ← s.w.setUd t key tmp u
      return ((), { s with w := w })

/-- Nothing is allocated. -/
def NestState.start : NestState := { w := World.empty, made := [] }

/-- Only tables that were created are used. -/
def NestState.Owned (s : NestState) : NestStep → Prop
  | .create => True
  | .store t _ u _ => t ∈ s.made ∧ u ∈ s.made

instance NestState.decidableOwned (s : NestState) : ∀ e : NestStep, Decidable (s.Owned e)
  | .create => isTrue trivial
  | .store t _ u _ => inferInstanceAs (Decidable (t ∈ s.made ∧ u ∈ s.made))

/-- `lighttable.delete`, of one table after the other. -/
def World.deleteAll (w : World) (roots : List Addr) : Option World :=
  roots.foldlM World.delete w

/-! ## §2. Tables stored in tables, and their deletion. -/

/-- The tables stored in a table, place by place; in these runs every value is
a table. -/
def World.places (w : World) (t : Addr) : List Addr :=
  ((w.current t).map (fun m => m.entries.map (fun n => n.v.v))).getD []

/-- In how many places a table is stored. -/
def NestState.stored (s : NestState) (u : Addr) : Nat :=
  ∑ t ∈ s.made.toFinset, (s.w.places t).count u

/-- The table `t` stores the table `u`. -/
def NestState.Stores (s : NestState) (t u : Addr) : Prop := u ∈ s.w.places t

/-- No table is stored in itself, directly or through others. -/
def NestState.Acyclic (s : NestState) : Prop := ∀ t, ¬ Relation.TransGen s.Stores t t

/-- The tables that are stored in no other, each once. -/
def NestState.Roots (s : NestState) (roots : List Addr) : Prop :=
  roots.Nodup ∧ ∀ t, t ∈ roots ↔ t ∈ s.made ∧ s.stored t = 0

/-- The deletion goes through, without an access to a table that is gone, and
destroys every table exactly once. -/
def NestState.Clean (s : NestState) (roots : List Addr) : Prop :=
  ∃ w', s.w.deleteAll roots = some w'
    ∧ ∀ t ∈ s.made, w'.destroyed.count t = 1 ∧ w'.tables t = none

/-! ## §3. Destruction. -/

variable {ch : Addr → List Addr} {w w' : World} {L L' : Finset Addr}

/-- A table at rest that stores the tables `ch t`, and nothing else. -/
def Intact (ch : Addr → List Addr) (w : World) (t : Addr) : Prop :=
  ∃ tb m, w.tables t = some tb ∧ tb.ref = 1 ∧ tb.maps tb.map = some m ∧ m.Wf
    ∧ (∀ n ∈ m.entries, n.v.type = .ud) ∧ m.entries.map (fun n => n.v.v) = ch t

/-- Releasing the tables `cs` one after the other leads from the live tables `L`
in `w` to the live tables `L'` in `w'`. -/
structure Destroyed (ch : Addr → List Addr) (w : World) (L : Finset Addr) (cs : List Addr)
    (w' : World) (L' : Finset Addr) : Prop where
  sub : L' ⊆ L
  brk : w'.brk = w.brk
  tables : ∀ x, (x ∈ L → x ∈ L') → w'.tables x = w.tables x
  gone : ∀ x ∈ L, x ∉ L' → w'.tables x = none
  log : ∀ x, w'.destroyed.count x + (if x ∈ L' then 1 else 0)
    = w.destroyed.count x + if x ∈ L then 1 else 0
  -- a reference that goes is a release, and a table that goes leaves its places
  balance : ∀ x, Owners.refs ch L cs x + (if x ∈ L' then 1 else 0)
    = Owners.refs ch L' [] x + if x ∈ L then 1 else 0

theorem Destroyed.refl (w : World) (L : Finset Addr) : Destroyed ch w L [] w L where
  sub := Subset.refl L
  brk := rfl
  tables := fun _ _ => rfl
  gone := fun _ hx hn => absurd hx hn
  log := fun _ => rfl
  balance := fun _ => rfl

theorem Destroyed.trans {cs cs' : List Addr} {w'' : World} {L'' : Finset Addr}
    (h₁ : Destroyed ch w L cs w' L') (h₂ : Destroyed ch w' L' cs' w'' L'') :
    Destroyed ch w L (cs ++ cs') w'' L'' where
  sub := h₂.sub.trans h₁.sub
  brk := h₂.brk.trans h₁.brk
  tables := by
    intro x hx
    have h1 : x ∈ L → x ∈ L' := fun hL => h₂.sub (hx hL)
    have h2 : x ∈ L' → x ∈ L'' := fun hL' => hx (h₁.sub hL')
    rw [h₂.tables x h2, h₁.tables x h1]
  gone := by
    intro x hx hn
    by_cases hL' : x ∈ L'
    · exact h₂.gone x hL' hn
    · rw [h₂.tables x (fun h => absurd h hL')]
      exact h₁.gone x hx hL'
  log := by
    intro x
    have := h₁.log x
    have := h₂.log x
    omega
  balance := by
    intro x
    have h1 := h₁.balance x
    have h2 := h₂.balance x
    rw [Owners.refs_pending ch L cs] at h1
    rw [Owners.refs_pending ch L' cs'] at h2
    rw [Owners.refs_append, Owners.refs_pending ch L cs']
    omega

/-- What is freed besides tables does not matter. -/
theorem Destroyed.congr {cs : List Addr} {v v' : World} (h : Destroyed ch v L cs v' L')
    (ht : v.tables = w.tables) (hd : v.destroyed = w.destroyed) (hb : v.brk = w.brk)
    (ht' : w'.tables = v'.tables) (hd' : w'.destroyed = v'.destroyed) (hb' : w'.brk = v'.brk) :
    Destroyed ch w L cs w' L' where
  sub := h.sub
  brk := by rw [hb', h.brk, hb]
  tables := by
    intro x hx
    rw [ht', h.tables x hx, ht]
  gone := by
    intro x hx hn
    rw [ht', h.gone x hx hn]
  log := by
    intro x
    rw [hd', ← hd]
    exact h.log x
  balance := h.balance

theorem Destroyed.intact {cs : List Addr} (h : Destroyed ch w L cs w' L')
    (hL : ∀ x ∈ L, Intact ch w x) : ∀ x ∈ L', Intact ch w' x := by
  intro x hx
  obtain ⟨tb, m, ht, hrest⟩ := hL x (h.sub hx)
  exact ⟨tb, m, by rw [h.tables x (fun _ => hx)]; exact ht, hrest⟩

/-- The tables that are there are live, or being destroyed by a call that has
not returned. -/
def Known (w : World) (L : Finset Addr) (S : List Addr) : Prop :=
  ∀ x, (w.tables x).isSome → x ∈ L ∨ x ∈ S

theorem Destroyed.known {cs S : List Addr} (h : Destroyed ch w L cs w' L')
    (hS : Known w L S) : Known w' L' S := by
  intro x hx
  by_cases hL' : x ∈ L'
  · exact Or.inl hL'
  · by_cases hL : x ∈ L
    · rw [h.gone x hL hL'] at hx
      exact absurd hx (by simp)
    · rw [h.tables x (fun hx => absurd hx hL)] at hx
      rcases hS x hx with hx | hx
      · exact absurd hx hL
      · exact Or.inr hx

/-- A release that returns does what `Destroyed` says, from any state in which
the calls that have not returned destroy tables that own `c`. -/
def Releases (ch : Addr → List Addr) (release : Addr → World → Option World) : Prop :=
  ∀ (c : Addr) (w w' : World) (L : Finset Addr) (S : List Addr), (∀ x ∈ L, Intact ch w x) →
    Known w L S → (∀ x ∈ S, Relation.TransGen (Owners.Edge ch) x c) →
    release c w = some w' → ∃ L', Destroyed ch w L [c] w' L'

variable {release : Addr → World → Option World}

/-- Clearing a node that holds the last use of a table releases the table. -/
theorem deleteNode_ud (release : Addr → World → Option World) {n : Node} (href : n.v.ref = 1)
    (htype : n.v.type = .ud) (w : World) :
    ∃ v : World, v.tables = w.tables ∧ v.destroyed = w.destroyed ∧ v.brk = w.brk
      ∧ deleteNode release w n = (release n.v.v v).map (fun w => w.free n.addr) := by
  unfold deleteNode clearValue
  rw [if_pos href, htype]
  cases n.strkey with
  | none =>
    refine ⟨w, rfl, rfl, rfl, ?_⟩
    cases release n.v.v w <;> rfl
  | some p =>
    refine ⟨w.free p.1, rfl, rfl, rfl, ?_⟩
    show (release n.v.v (w.free p.1)).bind _ = _
    cases release n.v.v (w.free p.1) <;> rfl

theorem Intact.congr {v : World} (ht : v.tables = w.tables) {x : Addr} (h : Intact ch w x) :
    Intact ch v x := by
  unfold Intact
  rw [ht]
  exact h

theorem Known.congr {v : World} (ht : v.tables = w.tables) {S : List Addr} (h : Known w L S) :
    Known v L S := by
  unfold Known
  rw [ht]
  exact h

/-- Clearing a node that returns is a release of the table in it. -/
theorem Releases.node (hrel : Releases ch release) {S : List Addr} {n : Node}
    (href : n.v.ref = 1) (htype : n.v.type = .ud) (hL : ∀ x ∈ L, Intact ch w x)
    (hS : Known w L S) (hown : ∀ x ∈ S, Relation.TransGen (Owners.Edge ch) x n.v.v)
    (hx : deleteNode release w n = some w') : ∃ L', Destroyed ch w L [n.v.v] w' L' := by
  obtain ⟨v, hvt, hvd, hvb, hdel⟩ := deleteNode_ud release href htype w
  rw [hdel] at hx
  obtain ⟨v', hv', rfl⟩ := Option.map_eq_some_iff.mp hx
  obtain ⟨L', hd⟩ :=
    hrel n.v.v v v' L S (fun x hx => (hL x hx).congr hvt) (hS.congr hvt) hown hv'
  exact ⟨L', hd.congr hvt hvd hvb rfl rfl rfl⟩

/-- The loop of `_delete_without_data`. -/
theorem Releases.nodes (hrel : Releases ch release) {S : List Addr} :
    ∀ {l : List Node} {w w' : World} {L : Finset Addr},
      (∀ n ∈ l, n.v.ref = 1 ∧ n.v.type = .ud) → (∀ x ∈ L, Intact ch w x) → Known w L S →
      (∀ n ∈ l, ∀ x ∈ S, Relation.TransGen (Owners.Edge ch) x n.v.v) →
      l.foldlM (deleteNode release) w = some w' →
      ∃ L', Destroyed ch w L (l.map (fun n => n.v.v)) w' L'
  | [], w, w', L, _, _, _, _, h => by
      obtain rfl : w = w' := Option.some.inj h
      exact ⟨L, .refl w L⟩
  | n :: rest, w, w', L, hl, hL, hS, hown, h => by
      obtain ⟨href, htype⟩ := hl n (by simp)
      rw [List.foldlM_cons] at h
      obtain ⟨w₁, hn, h⟩ := Option.bind_eq_some_iff.mp h
      obtain ⟨L₁, hd₁⟩ := hrel.node href htype hL hS (hown n (by simp)) hn
      obtain ⟨L', hd'⟩ := Releases.nodes hrel (fun x hx => hl x (by simp [hx])) (hd₁.intact hL)
        (hd₁.known hS) (fun x hx => hown x (by simp [hx])) h
      exact ⟨L', hd₁.trans hd'⟩

/-- A table about to be destroyed: its counter no longer matters. -/
structure Doomed (ch : Addr → List Addr) (w : World) (L : Finset Addr) (c : Addr) (tb : Table)
    (m : LMap) : Prop where
  live : c ∈ L
  table : w.tables c = some tb
  map : tb.maps tb.map = some m
  wf : m.Wf
  type : ∀ n ∈ m.entries, n.v.type = .ud
  places : m.entries.map (fun n => n.v.v) = ch c
  others : ∀ x ∈ L.erase c, Intact ch w x

/-- The world in which the destructor of `c` deletes the map. -/
def World.dying (w : World) (c : Addr) (tb : Table) : World :=
  w.putTable c { tb.dropMap tb.map with ref := 0 }

variable {c : Addr} {tb : Table} {m : LMap}

theorem Known.dying {S : List Addr} (hS : Known w L S) (c : Addr) (tb : Table) :
    Known (w.dying c tb) (L.erase c) (c :: S) := by
  intro x hx
  by_cases hc : x = c
  · exact Or.inr (by rw [hc]; exact List.mem_cons_self)
  · have hx' : (w.tables x).isSome := by
      rw [← World.putTable_tables_ne w hc]
      exact hx
    rcases hS x hx' with hx | hx
    · exact Or.inl (Finset.mem_erase.mpr ⟨hc, hx⟩)
    · exact Or.inr (List.mem_cons_of_mem c hx)

theorem Doomed.intact (h : Doomed ch w L c tb m) :
    ∀ x ∈ L.erase c, Intact ch (w.dying c tb) x := by
  intro x hx
  obtain ⟨tb', m', ht, hrest⟩ := h.others x hx
  refine ⟨tb', m', ?_, hrest⟩
  unfold World.dying
  rw [World.putTable_tables_ne w (Finset.ne_of_mem_erase hx)]
  exact ht

/-- The owners of `c`, and `c` itself, own what `c` stores. -/
theorem Doomed.owns {S : List Addr} (h : Doomed ch w L c tb m)
    (hown : ∀ x ∈ S, Relation.TransGen (Owners.Edge ch) x c) :
    ∀ n ∈ m.entries, ∀ x ∈ c :: S, Relation.TransGen (Owners.Edge ch) x n.v.v := by
  intro n hn x hx
  have hstored : n.v.v ∈ ch c := by
    rw [← h.places]
    exact List.mem_map_of_mem hn
  rcases List.mem_cons.mp hx with rfl | hx
  · exact .single hstored
  · exact (hown x hx).tail hstored

/-- The destructor, with the loop over the nodes in the middle. -/
theorem Doomed.deleteTable_eq (h : Doomed ch w L c tb m) :
    deleteTable release c w
      = (m.entries.foldlM (deleteNode release) (w.dying c tb)).bind (fun v =>
          (v.tables c).map (fun _ => ({ v.free tb.map with
            tables := Function.update v.tables c none,
            destroyed := c :: v.destroyed } : World).free c)) := by
  unfold deleteTable deleteMap deleteWithoutData
  simp only [h.table, h.map, Option.bind_eq_bind, Option.bind_some, h.wf.take_data]
  show ((m.entries.foldlM (deleteNode release) (w.dying c tb)).bind _).bind _ = _
  cases m.entries.foldlM (deleteNode release) (w.dying c tb) with
  | none => rfl
  | some v =>
    show (v.tables c).bind _ = (v.tables c).map _
    cases v.tables c <;> rfl

/-- `delete` of a table that returns. -/
theorem Releases.deleteTable (hrel : Releases ch release) {S : List Addr}
    (h : Doomed ch w L c tb m) (hS : Known w L S)
    (hown : ∀ x ∈ S, Relation.TransGen (Owners.Edge ch) x c)
    (hx : deleteTable release c w = some w') :
    ∃ L', c ∉ L' ∧ Destroyed ch w L [c] w' L' := by
  rw [h.deleteTable_eq] at hx
  obtain ⟨v, hv, hx⟩ := Option.bind_eq_some_iff.mp hx
  obtain ⟨tb', -, rfl⟩ := Option.map_eq_some_iff.mp hx
  obtain ⟨L', hd⟩ := hrel.nodes (fun n hn => ⟨h.wf.vref n hn, h.type n hn⟩) h.intact
    (hS.dying c tb) (h.owns hown) hv
  rw [h.places] at hd
  -- below the table nothing reaches it again
  have hcL' : c ∉ L' := fun hc => absurd (hd.sub hc) (Finset.notMem_erase c L)
  refine ⟨L', hcL', ?_, ?_, ?_, ?_, ?_, ?_⟩
  · exact hd.sub.trans (Finset.erase_subset c L)
  · exact hd.brk
  · intro x hx
    have hxc : x ≠ c := fun hxc => hcL' (by rw [← hxc]; exact hx (by rw [hxc]; exact h.live))
    show Function.update v.tables c none x = _
    rw [Function.update_of_ne hxc, hd.tables x (fun hmem => hx (Finset.mem_of_mem_erase hmem))]
    exact World.putTable_tables_ne w hxc _
  · intro x hx hn
    show Function.update v.tables c none x = none
    by_cases hxc : x = c
    · rw [hxc, Function.update_self]
    · rw [Function.update_of_ne hxc]
      exact hd.gone x (Finset.mem_erase.mpr ⟨hxc, hx⟩) hn
  · intro x
    -- it is logged after what it held
    have hlog : v.destroyed.count x + (if x ∈ L' then 1 else 0)
        = w.destroyed.count x + if x ∈ L.erase c then 1 else 0 := hd.log x
    have hmem := Owners.mem_erase_count h.live x
    show (c :: v.destroyed).count x + _ = _
    rw [List.count_cons]
    simp only [beq_iff_eq]
    omega
  · intro x
    -- its own references go with it
    have hbal := hd.balance x
    have hmem := Owners.mem_erase_count h.live x
    rw [Owners.refs_cons, ← Owners.refs_erase h.live, List.append_nil]
    omega

/-- `_release` of a live table lets the counter go and destroys the table. -/
theorem releaseFuel_intact {S : List Addr} (hL : ∀ x ∈ L, Intact ch w x) (hS : Known w L S)
    (hc : c ∈ L) (fuel : Nat) :
    ∃ (w₀ : World) (tb : Table) (m : LMap),
      releaseFuel (fuel + 1) c w = deleteTable (releaseFuel fuel) c w₀
        ∧ Doomed ch w₀ L c tb m ∧ Known w₀ L S ∧ w₀.brk = w.brk
        ∧ w₀.destroyed = w.destroyed ∧ ∀ x, x ≠ c → w₀.tables x = w.tables x := by
  obtain ⟨tb, m, htb, href, hm, hwf, htype, hplaces⟩ := hL c hc
  have hzero : asInt (tb.ref - 1) = 0 := by
    rw [href]
    rfl
  have hother : ∀ x, x ≠ c → (w.putTable c { tb with ref := 0 }).tables x = w.tables x :=
    fun x hxc => World.putTable_tables_ne w hxc _
  refine ⟨w.putTable c { tb with ref := 0 }, { tb with ref := 0 }, m, ?_, ?_, ?_, rfl, rfl,
    hother⟩
  · conv_lhs => unfold releaseFuel
    simp only [htb, hzero, Option.bind_eq_bind, Option.bind_some]
    rw [if_neg (by decide)]
  · refine ⟨hc, World.putTable_tables_self _ _ _, hm, hwf, htype, hplaces, ?_⟩
    intro x hx
    obtain ⟨tb', m', ht, hrest⟩ := hL x (Finset.mem_of_mem_erase hx)
    exact ⟨tb', m', by rw [hother x (Finset.ne_of_mem_erase hx)]; exact ht, hrest⟩
  · intro x hx
    by_cases hxc : x = c
    · exact Or.inl (by rw [hxc]; exact hc)
    · rw [hother x hxc] at hx
      exact hS x hx

/-- `_release`, at any nesting depth: without a cycle the released table is a
live one, and goes. -/
theorem releaseFuel_releases (hacyc : ∀ t, ¬ Relation.TransGen (Owners.Edge ch) t t) :
    ∀ fuel, Releases ch (releaseFuel fuel) := by
  intro fuel
  induction fuel with
  | zero =>
    intro c w w' L S _ _ _ hx
    exact absurd hx (by simp [releaseFuel])
  | succ fuel ih =>
    intro c w w' L S hL hS hown hx
    have hc : c ∈ L := by
      unfold releaseFuel at hx
      obtain ⟨tb, htb, -⟩ := Option.bind_eq_some_iff.mp hx
      rcases hS c (by rw [htb]; rfl) with hc | hc
      · exact hc
      · exact absurd (hown c hc) (hacyc c)
    obtain ⟨w₀, tb, m, heq, hdoomed, hS₀, hbrk, hlog, hother⟩ := releaseFuel_intact hL hS hc fuel
    rw [heq] at hx
    obtain ⟨L', hcL', hd⟩ := ih.deleteTable hdoomed hS₀ hown hx
    refine ⟨L', hd.sub, by rw [hd.brk, hbrk], ?_, hd.gone, by rw [← hlog]; exact hd.log,
      hd.balance⟩
    intro x hx
    have hxc : x ≠ c := fun hxc => hcL' (by rw [← hxc]; exact hx (by rw [hxc]; exact hc))
    rw [hd.tables x hx, hother x hxc]

/-! ## §4. No release goes wrong. -/

/-- Every live table has one reference, among the releases to come and the
places of live tables, and no other table has any. -/
def Settled (ch : Addr → List Addr) (L : Finset Addr) (pending : List Addr) : Prop :=
  ∀ x, Owners.refs ch L pending x = if x ∈ L then 1 else 0

theorem Settled.live {rest : List Addr} (h : Settled ch L (c :: rest)) : c ∈ L := by
  by_contra hc
  have := h c
  rw [if_neg hc, Owners.refs_cons, if_pos rfl] at this
  omega

theorem Destroyed.settled {cs rest : List Addr} (h : Destroyed ch w L cs w' L')
    (hs : Settled ch L (cs ++ rest)) : Settled ch L' rest := by
  intro x
  have hbal := h.balance x
  have hx := hs x
  rw [Owners.refs_append, Owners.refs_pending] at hx
  rw [Owners.refs_pending ch L cs] at hbal
  rw [Owners.refs_pending]
  omega

/-- Destroying a table turns its places into releases to come. -/
theorem Settled.erase {rest : List Addr} (h : Settled ch L (c :: rest)) :
    Settled ch (L.erase c) (ch c ++ rest) := by
  intro x
  have hx := h x
  have hmem := Owners.mem_erase_count h.live x
  rw [Owners.refs_cons] at hx
  rw [Owners.refs_erase h.live]
  omega

/-- A release returns when every live table has one reference and there are at
most `k` of them. -/
def Returns (ch : Addr → List Addr) (release : Addr → World → Option World) (k : Nat) : Prop :=
  ∀ (c : Addr) (w : World) (L : Finset Addr) (S rest : List Addr), (∀ x ∈ L, Intact ch w x) →
    Known w L S → (∀ x ∈ S, Relation.TransGen (Owners.Edge ch) x c) →
    Settled ch L (c :: rest) → L.card ≤ k → (release c w).isSome

/-- Clearing a node returns when the release of the table in it does. -/
theorem Returns.node {k : Nat} (hret : Returns ch release k) {S rest : List Addr} {n : Node}
    (href : n.v.ref = 1) (htype : n.v.type = .ud) (hL : ∀ x ∈ L, Intact ch w x)
    (hS : Known w L S) (hown : ∀ x ∈ S, Relation.TransGen (Owners.Edge ch) x n.v.v)
    (hset : Settled ch L (n.v.v :: rest)) (hk : L.card ≤ k) :
    ∃ w', deleteNode release w n = some w' := by
  obtain ⟨v, hvt, -, -, hdel⟩ := deleteNode_ud release href htype w
  obtain ⟨v', hv'⟩ := Option.isSome_iff_exists.mp
    (hret n.v.v v L S rest (fun x hx => (hL x hx).congr hvt) (hS.congr hvt) hown hset hk)
  exact ⟨v'.free n.addr, by rw [hdel, hv']; rfl⟩

/-- The loop of `_delete_without_data` returns. -/
theorem Returns.nodes {k : Nat} (hret : Returns ch release k) (hrel : Releases ch release)
    {S rest : List Addr} :
    ∀ {l : List Node} {w : World} {L : Finset Addr},
      (∀ n ∈ l, n.v.ref = 1 ∧ n.v.type = .ud) → (∀ x ∈ L, Intact ch w x) → Known w L S →
      (∀ n ∈ l, ∀ x ∈ S, Relation.TransGen (Owners.Edge ch) x n.v.v) →
      Settled ch L (l.map (fun n => n.v.v) ++ rest) → L.card ≤ k →
      (l.foldlM (deleteNode release) w).isSome
  | [], _, _, _, _, _, _, _, _ => rfl
  | n :: l, w, L, hl, hL, hS, hown, hset, hk => by
      obtain ⟨href, htype⟩ := hl n (by simp)
      obtain ⟨w₁, hn⟩ := hret.node href htype hL hS (hown n (by simp)) hset hk
      obtain ⟨L₁, hd₁⟩ := hrel.node href htype hL hS (hown n (by simp)) hn
      rw [List.foldlM_cons, hn]
      exact Returns.nodes hret hrel (fun x hx => hl x (by simp [hx])) (hd₁.intact hL)
        (hd₁.known hS) (fun x hx => hown x (by simp [hx])) (hd₁.settled hset)
        (Nat.le_trans (Finset.card_le_card hd₁.sub) hk)

/-- `delete` of a table returns. -/
theorem Returns.deleteTable {k : Nat} (hret : Returns ch release k) (hrel : Releases ch release)
    {S rest : List Addr} (h : Doomed ch w L c tb m) (hS : Known w L S)
    (hown : ∀ x ∈ S, Relation.TransGen (Owners.Edge ch) x c)
    (hset : Settled ch L (c :: rest)) (hk : L.card ≤ k + 1) :
    (deleteTable release c w).isSome := by
  have hnodes : ∀ n ∈ m.entries, n.v.ref = 1 ∧ n.v.type = .ud :=
    fun n hn => ⟨h.wf.vref n hn, h.type n hn⟩
  have hcard : (L.erase c).card ≤ k := by
    rw [Finset.card_erase_of_mem h.live]
    omega
  obtain ⟨v, hv⟩ := Option.isSome_iff_exists.mp
    (hret.nodes hrel hnodes h.intact (hS.dying c tb) (h.owns hown)
      (by rw [h.places]; exact hset.erase) hcard)
  obtain ⟨L', hd⟩ := hrel.nodes hnodes h.intact (hS.dying c tb) (h.owns hown) hv
  -- the table object is still there when its destructor is done
  have htable : v.tables c = some { tb.dropMap tb.map with ref := 0 } := by
    rw [hd.tables c (fun hc => absurd hc (Finset.notMem_erase c L))]
    exact World.putTable_tables_self _ _ _
  rw [h.deleteTable_eq, hv, Option.bind_some, htable]
  rfl

theorem releaseFuel_returns (hacyc : ∀ t, ¬ Relation.TransGen (Owners.Edge ch) t t) :
    ∀ fuel, Returns ch (releaseFuel fuel) fuel := by
  intro fuel
  induction fuel with
  | zero =>
    intro c w L S rest _ _ _ hset hk
    have hpos := Finset.card_pos.mpr ⟨c, hset.live⟩
    omega
  | succ fuel ih =>
    intro c w L S rest hL hS hown hset hk
    obtain ⟨w₀, tb, m, heq, hdoomed, hS₀, -⟩ := releaseFuel_intact hL hS hset.live fuel
    rw [heq]
    exact ih.deleteTable (releaseFuel_releases hacyc fuel) hdoomed hS₀ hown hset hk

/-! ## §5. Deleting the roots. -/

/-- A live table may be deleted. -/
theorem Intact.doomed (hL : ∀ x ∈ L, Intact ch w x) (hc : c ∈ L) :
    ∃ tb m, Doomed ch w L c tb m := by
  obtain ⟨tb, m, htb, -, hm, hwf, htype, hplaces⟩ := hL c hc
  exact ⟨tb, m, hc, htb, hm, hwf, htype, hplaces, fun x hx => hL x (Finset.mem_of_mem_erase hx)⟩

theorem deleteAll_destroyed (hacyc : ∀ t, ¬ Relation.TransGen (Owners.Edge ch) t t) :
    ∀ {roots : List Addr} {w w' : World} {L : Finset Addr}, (∀ x ∈ L, Intact ch w x) →
      Known w L [] → w.deleteAll roots = some w' → ∃ L', Destroyed ch w L roots w' L'
  | [], w, w', L, _, _, h => by
      obtain rfl : w = w' := Option.some.inj h
      exact ⟨L, .refl w L⟩
  | c :: roots, w, w', L, hL, hS, h => by
      unfold World.deleteAll at h
      rw [List.foldlM_cons] at h
      obtain ⟨w₁, hdel, h⟩ := Option.bind_eq_some_iff.mp h
      have hc : c ∈ L := by
        have hsome : (w.tables c).isSome := by
          unfold World.delete deleteTable at hdel
          obtain ⟨tb, htb, -⟩ := Option.bind_eq_some_iff.mp hdel
          rw [htb]
          rfl
        rcases hS c hsome with hc | hc
        · exact hc
        · exact absurd hc (by simp)
      obtain ⟨tb, m, hdoomed⟩ := Intact.doomed hL hc
      obtain ⟨L₁, -, hd₁⟩ := (releaseFuel_releases hacyc w.brk).deleteTable hdoomed hS
        (fun x hx => absurd hx (by simp)) hdel
      obtain ⟨L', hd'⟩ := deleteAll_destroyed hacyc (hd₁.intact hL) (hd₁.known hS) h
      exact ⟨L', hd₁.trans hd'⟩

theorem deleteAll_returns (hacyc : ∀ t, ¬ Relation.TransGen (Owners.Edge ch) t t) :
    ∀ {roots : List Addr} {w : World} {L : Finset Addr}, (∀ x ∈ L, Intact ch w x) →
      Known w L [] → Settled ch L roots → L.card ≤ w.brk → (w.deleteAll roots).isSome
  | [], _, _, _, _, _, _ => rfl
  | c :: roots, w, L, hL, hS, hset, hk => by
      have hnone : ∀ x ∈ ([] : List Addr), Relation.TransGen (Owners.Edge ch) x c :=
        fun x hx => absurd hx (by simp)
      obtain ⟨tb, m, hdoomed⟩ := Intact.doomed hL hset.live
      obtain ⟨w₁, hdel⟩ := Option.isSome_iff_exists.mp
        ((releaseFuel_returns hacyc w.brk).deleteTable (releaseFuel_releases hacyc w.brk) hdoomed
          hS hnone hset (Nat.le_succ_of_le hk))
      obtain ⟨L₁, -, hd₁⟩ :=
        (releaseFuel_releases hacyc w.brk).deleteTable hdoomed hS hnone hdel
      have hdel : w.delete c = some w₁ := hdel
      unfold World.deleteAll
      rw [List.foldlM_cons, hdel]
      refine deleteAll_returns hacyc (hd₁.intact hL) (hd₁.known hS) (hd₁.settled hset) ?_
      rw [hd₁.brk]
      exact Nat.le_trans (Finset.card_le_card hd₁.sub) hk

/-! ## §6. Building. -/

/-- Between the steps that build: the tables that were created are the tables
that are there, each at rest with the counter of its constructor, storing only
tables that were created. -/
structure NestState.Built (s : NestState) : Prop where
  old : ∀ t ∈ s.made, t < s.w.brk
  known : ∀ t, (s.w.tables t).isSome → t ∈ s.made
  rest : ∀ t ∈ s.made, ∃ tb m, s.w.Owns t tb m ∧ tb.ref = 1 ∧ m.Wf
    ∧ ∀ n ∈ m.entries, n.v.type = .ud ∧ n.v.v ∈ s.made
  log : s.w.destroyed = []

theorem NestState.start_built : NestState.start.Built where
  old := fun t ht => absurd ht (by simp [NestState.start])
  known := fun t ht => absurd ht (by simp [NestState.start, World.empty])
  rest := fun t ht => absurd ht (by simp [NestState.start])
  log := rfl

theorem World.Owns.moved {t : Addr} (h : w.Owns t tb m) (ht : w'.tables t = w.tables t)
    (hb : w.brk ≤ w'.brk) : w'.Owns t tb m :=
  ⟨ht.trans h.table, h.map, h.ref, Nat.lt_of_lt_of_le h.below hb⟩

theorem NestState.Built.create {s : NestState} (h : s.Built) {t : Addr}
    (hx : s.w.newTable = some (t, w')) : NestState.Built { w := w', made := t :: s.made } := by
  obtain ⟨rfl, hbrk, -, -, hlog, hother, tb, howns, href⟩ := World.of_newTable hx
  have hle : s.w.brk ≤ w'.brk := by
    rw [hbrk]
    exact Nat.le_add_right _ 2
  refine ⟨?_, ?_, ?_, hlog.trans h.log⟩
  · intro t ht
    show t < w'.brk
    rcases List.mem_cons.mp ht with rfl | ht
    · rw [hbrk]
      exact Nat.lt_add_of_pos_right Nat.two_pos
    · exact Nat.lt_of_lt_of_le (h.old t ht) hle
  · intro t ht
    by_cases hts : t = s.w.brk
    · rw [hts]
      exact List.mem_cons_self
    · have ht : (w'.tables t).isSome := ht
      -- a table from before was known before
      rw [hother t hts] at ht
      exact List.mem_cons_of_mem _ (h.known t ht)
  · intro t ht
    by_cases hts : t = s.w.brk
    · rw [hts]
      exact ⟨tb, LMap.new 29, howns, href, LMap.new_inv.toWf,
        fun n hn => absurd hn (by simp [LMap.new_entries])⟩
    · have hmade : t ∈ s.made := (List.mem_cons.mp ht).resolve_left hts
      obtain ⟨tb', m', howns', href', hwf', hall⟩ := h.rest t hmade
      exact ⟨tb', m', howns'.moved (hother t hts) hle, href', hwf',
        fun n hn => ⟨(hall n hn).1, List.mem_cons_of_mem _ (hall n hn).2⟩⟩

theorem NestState.Built.store {s : NestState} (h : s.Built) {t u : Addr} {key : Key} {tmp : Value}
    (ht : t ∈ s.made) (hu : u ∈ s.made) {r : Int} (hx : s.w.setUd t key tmp u = some (r, w')) :
    NestState.Built { s with w := w' } := by
  obtain ⟨tb, m, howns, href, hwf, hall⟩ := h.rest t ht
  unfold World.setUd World.setPlain at hx
  obtain ⟨⟨type, w₁⟩, hins, hx⟩ := Option.bind_eq_some_iff.mp hx
  simp only [Option.pure_def, Option.some.injEq, Prod.mk.injEq] at hx
  obtain ⟨-, rfl⟩ := hx
  have hne : LType.ud ≠ .nil := by decide
  have hready := howns.of_insertTable (v := { tmp with type := .ud, v := u }) hwf hne hins
  obtain ⟨w₂, tb', m', heq, howns', hgrown, -, hframe, htb, -⟩ :=
    howns.insertTable hwf key (v := { tmp with type := .ud, v := u }) hne hready
  rw [hins] at heq
  simp only [Option.some.injEq, Prod.mk.injEq] at heq
  obtain ⟨-, rfl⟩ := heq
  have hwf₁ := hwf.inserted key s.w.brk (v := { tmp with type := .ud, v := u }) hne
  obtain ⟨hwf', hperm⟩ := hwf₁.grown hgrown hready
  refine ⟨fun x hx => Nat.lt_of_lt_of_le (h.old x hx) hframe.brk, ?_, ?_,
    hframe.destroyed.trans h.log⟩
  · intro x hx
    by_cases hxt : x = t
    · rw [hxt]
      exact ht
    · have hx : (w₁.tables x).isSome := hx
      rw [hframe.tables x hxt] at hx
      exact h.known x hx
  · intro x hx
    by_cases hxt : x = t
    · subst hxt
      refine ⟨tb', m', howns', htb.trans href, hwf', ?_⟩
      intro n hn
      -- a copy holds the value of a node that was there before the growth
      obtain ⟨a, ha, han⟩ :=
        List.mem_map.mp (hperm.mem_iff.mp (List.mem_map_of_mem (f := Node.content) hn))
      have hv : a.v = n.v := congrArg Prod.snd han
      rw [← hv]
      rcases hwf.toSized.mem_inserted ha with ha | ⟨b, hb, rfl⟩ | ⟨-, rfl⟩
      · exact hall a ha
      · exact ⟨(hall b (LMap.find_mem hb).1).1, hu⟩
      · exact ⟨rfl, hu⟩
    · obtain ⟨tb₁, m₁, howns₁, href₁, hwf₁, hall₁⟩ := h.rest x hx
      exact ⟨tb₁, m₁, howns₁.moved (hframe.tables x hxt) hframe.brk, href₁, hwf₁, hall₁⟩

/-- Every state reached by steps on tables that were created. -/
theorem NestState.run_built {steps : List NestStep} {os : List Unit} {s : NestState}
    (h : Run.run NestState.step .start steps = some (os, s))
    (hown : Run.Along NestState.step NestState.Owned .start steps) : s.Built := by
  refine Run.run_inv_along NestState.step (I := NestState.Built) ?_ NestState.start_built hown h
  intro s e o s' hs ho hx
  unfold NestState.step at hx
  cases e with
  | create =>
    obtain ⟨⟨t, w'⟩, hnew, hx⟩ := Option.bind_eq_some_iff.mp hx
    cases hx
    exact hs.create hnew
  | store t key u tmp =>
    obtain ⟨⟨r, w'⟩, hset, hx⟩ := Option.bind_eq_some_iff.mp hx
    cases hx
    exact hs.store ho.1 ho.2 hset

theorem World.Owns.places {t : Addr} (h : w.Owns t tb m) :
    w.places t = m.entries.map (fun n => n.v.v) := by
  unfold World.places
  rw [h.current]
  rfl

theorem World.places_of_none {t : Addr} (h : w.tables t = none) : w.places t = [] := by
  unfold World.places World.current
  rw [h]
  rfl

variable {s : NestState}

theorem NestState.Built.intact (h : s.Built) : ∀ x ∈ s.made.toFinset, Intact s.w.places s.w x := by
  intro x hx
  obtain ⟨tb, m, howns, href, hwf, hall⟩ := h.rest x (List.mem_toFinset.mp hx)
  exact ⟨tb, m, howns.table, href, howns.map, hwf, fun n hn => (hall n hn).1, howns.places.symm⟩

theorem NestState.Built.knownAll (h : s.Built) : Known s.w s.made.toFinset [] :=
  fun x hx => Or.inl (List.mem_toFinset.mpr (h.known x hx))

/-- Only tables that were created are stored anywhere. -/
theorem NestState.Built.made_of_stores (h : s.Built) {t u : Addr} (hu : s.Stores t u) :
    t ∈ s.made ∧ u ∈ s.made := by
  unfold NestState.Stores at hu
  by_cases ht : t ∈ s.made
  · obtain ⟨tb, m, howns, -, -, hall⟩ := h.rest t ht
    rw [howns.places] at hu
    obtain ⟨n, hn, rfl⟩ := List.mem_map.mp hu
    exact ⟨ht, (hall n hn).2⟩
  · have hnone : s.w.tables t = none := by
      cases hx : s.w.tables t with
      | none => rfl
      | some tb => exact absurd (h.known t (by rw [hx]; rfl)) ht
    rw [World.places_of_none hnone] at hu
    exact absurd hu (by simp)

theorem NestState.Built.stored_of_not_made (h : s.Built) {u : Addr} (hu : u ∉ s.made) :
    s.stored u = 0 := by
  unfold NestState.stored
  refine Finset.sum_eq_zero ?_
  intro t ht
  refine List.count_eq_zero.mpr ?_
  intro hmem
  exact hu (h.made_of_stores hmem).2

theorem NestState.Built.card_le (h : s.Built) : s.made.toFinset.card ≤ s.w.brk := by
  have hsub : s.made.toFinset ⊆ Finset.range s.w.brk := by
    intro x hx
    exact Finset.mem_range.mpr (h.old x (List.mem_toFinset.mp hx))
  exact Nat.le_trans (Finset.card_le_card hsub) (Nat.le_of_eq (Finset.card_range _))

/-! ## §7. When every table is destroyed exactly once. -/

/-- Every table has one reference: it is a root, or stored in one place. -/
theorem NestState.Built.settled (h : s.Built) {roots : List Addr} (hroots : s.Roots roots)
    (hone : ∀ t ∈ s.made, s.stored t ≤ 1) : Settled s.w.places s.made.toFinset roots := by
  intro x
  show roots.count x + s.stored x = _
  simp only [List.mem_toFinset]
  by_cases hx : x ∈ s.made
  · have hle := hone x hx
    rw [if_pos hx]
    by_cases h0 : s.stored x = 0
    · rw [List.count_eq_one_of_mem hroots.1 ((hroots.2 x).mpr ⟨hx, h0⟩), h0]
    · rw [List.count_eq_zero.mpr (fun hmem => h0 ((hroots.2 x).mp hmem).2)]
      omega
  · rw [if_neg hx, h.stored_of_not_made hx,
      List.count_eq_zero.mpr (fun hmem => hx ((hroots.2 x).mp hmem).1)]

/-- A set of tables that hold each other holds a cycle. -/
theorem NestState.Acyclic.eq_empty (hacyc : s.Acyclic)
    (h : ∀ x ∈ L, 0 < Owners.refs s.w.places L [] x) : L = ∅ := by
  refine Finset.eq_empty_of_forall_notMem ?_
  intro x hx
  obtain ⟨u, hu, -⟩ := Owners.exists_reached hacyc h hx
  exact absurd hu (by simp)

/-- Tables are destroyed exactly once, and none is touched after, if and only
if every table is stored in at most one place. -/
theorem nested_clean_iff {steps : List NestStep} {os : List Unit} {roots : List Addr}
    (h : Run.run NestState.step .start steps = some (os, s))
    (hown : Run.Along NestState.step NestState.Owned .start steps) (hacyc : s.Acyclic)
    (hroots : s.Roots roots) : s.Clean roots ↔ ∀ t ∈ s.made, s.stored t ≤ 1 := by
  have hb := NestState.run_built h hown
  constructor
  · rintro ⟨w', hdel, hall⟩ t ht
    obtain ⟨L', hd⟩ := deleteAll_destroyed hacyc hb.intact hb.knownAll hdel
    -- no table is left
    have hempty : ∀ x, x ∉ L' := by
      intro x hx
      have hmade := List.mem_toFinset.mp (hd.sub hx)
      obtain ⟨tb, m, howns, -⟩ := hb.rest x hmade
      have hnone := (hall x hmade).2
      rw [hd.tables x (fun _ => hx), howns.table] at hnone
      exact absurd hnone (by simp)
    have hbal : roots.count t + s.stored t + _ = _ + _ := hd.balance t
    rw [if_neg (hempty t), if_pos (List.mem_toFinset.mpr ht),
      Finset.eq_empty_of_forall_notMem hempty] at hbal
    have hzero : Owners.refs s.w.places ∅ [] t = 0 := rfl
    omega
  · intro hone
    have hset := hb.settled hroots hone
    obtain ⟨w', hdel⟩ := Option.isSome_iff_exists.mp
      (deleteAll_returns hacyc hb.intact hb.knownAll hset hb.card_le)
    obtain ⟨L', hd⟩ := deleteAll_destroyed hacyc hb.intact hb.knownAll hdel
    have hL' : L' = ∅ := by
      refine NestState.Acyclic.eq_empty hacyc ?_
      intro x hx
      have hbal := hd.balance x
      have hx' := hset x
      rw [if_pos hx] at hbal
      omega
    subst hL'
    refine ⟨w', hdel, ?_⟩
    intro t ht
    have hmem := List.mem_toFinset.mpr ht
    have hlog := hd.log t
    rw [if_pos hmem, if_neg (Finset.notMem_empty t), hb.log, List.count_nil] at hlog
    exact ⟨by omega, hd.gone t hmem (Finset.notMem_empty t)⟩

/-- Where a table stores only tables created after it there is no cycle. -/
theorem NestState.acyclic_of_lt (h : ∀ t u, s.Stores t u → t < u) : s.Acyclic := by
  intro t ht
  have hlt : ∀ u, Relation.TransGen s.Stores t u → t < u := by
    intro u hu
    induction hu with
    | single hs => exact h t _ hs
    | tail _ hs ih => exact Nat.lt_trans ih (h _ _ hs)
  exact Nat.lt_irrefl t (hlt t ht)

/-- The steps of a run that stores one table into another under some keys. -/
def nestUnder (keys : List Key) : List NestStep :=
  .create :: .create :: keys.map (fun key => .store 1 key 3 .blank)

/-- The outer table is the only root, and there is no cycle. -/
theorem NestState.Built.outer (h : s.Built) (hmade : s.made = [3, 1]) (h1 : s.stored 1 = 0)
    (h3 : s.stored 3 ≠ 0) (hp1 : ∀ u ∈ s.w.places 1, u = 3) (hp3 : s.w.places 3 = []) :
    s.Acyclic ∧ s.Roots [1] := by
  constructor
  · apply NestState.acyclic_of_lt
    intro t u hu
    have ht := (h.made_of_stores hu).1
    rw [hmade] at ht
    unfold NestState.Stores at hu
    rcases List.mem_cons.mp ht with rfl | ht
    · rw [hp3] at hu
      exact absurd hu (by simp)
    · rw [List.mem_singleton.mp ht] at hu ⊢
      rw [hp1 u hu]
      decide
  · refine ⟨List.nodup_singleton 1, ?_⟩
    intro t
    rw [hmade]
    constructor
    · intro ht
      rw [List.mem_singleton.mp ht]
      exact ⟨by simp, h1⟩
    · rintro ⟨ht, h0⟩
      rcases List.mem_cons.mp ht with rfl | ht
      · exact absurd h0 h3
      · exact ht

/-- Under one key. -/
theorem nested_clean_iff_one :
    ∃ os s, Run.run NestState.step .start (nestUnder [.num 1]) = some (os, s)
      ∧ s.made = [3, 1] ∧ s.w.places 1 = [3] ∧ s.Clean [1] := by
  have hown : Run.Along NestState.step NestState.Owned .start (nestUnder [.num 1]) := by decide
  have hend : (Run.run NestState.step .start (nestUnder [.num 1])).map
      (fun q => (q.2.made, q.2.stored 1, q.2.stored 3, q.2.w.places 1, q.2.w.places 3))
      = some ([3, 1], 0, 1, [3], []) := by decide
  obtain ⟨⟨os, s⟩, hrun, hq⟩ := Option.map_eq_some_iff.mp hend
  simp only [Prod.mk.injEq] at hq
  obtain ⟨hmade, h1, h3, hp1, hp3⟩ := hq
  obtain ⟨hacyc, hroots⟩ := (NestState.run_built hrun hown).outer hmade h1 (by rw [h3]; decide)
    (by rw [hp1]; simp) hp3
  refine ⟨os, s, hrun, hmade, hp1, (nested_clean_iff hrun hown hacyc hroots).mpr ?_⟩
  intro t ht
  rw [hmade] at ht
  rcases List.mem_cons.mp ht with rfl | ht
  · exact Nat.le_of_eq h3
  · rw [List.mem_singleton.mp ht, h1]
    exact Nat.zero_le 1

/-- Under two keys: the second release finds a table that is gone. -/
theorem setUd_shares_table :
    ∃ os s, Run.run NestState.step .start (nestUnder [.num 1, .num 2]) = some (os, s)
      ∧ Run.Along NestState.step NestState.Owned .start (nestUnder [.num 1, .num 2])
      ∧ s.Acyclic ∧ s.Roots [1] ∧ s.w.deleteAll [1] = none ∧ ¬ s.Clean [1] := by
  have hown : Run.Along NestState.step NestState.Owned .start (nestUnder [.num 1, .num 2]) := by
    decide
  have hend : (Run.run NestState.step .start (nestUnder [.num 1, .num 2])).map
      (fun q => ((q.2.made, q.2.stored 1, q.2.stored 3),
        (q.2.w.places 1, q.2.w.places 3, (q.2.w.deleteAll [1]).isNone)))
      = some (([3, 1], 0, 2), ([3, 3], [], true)) := by decide
  obtain ⟨⟨os, s⟩, hrun, hq⟩ := Option.map_eq_some_iff.mp hend
  simp only [Prod.mk.injEq] at hq
  obtain ⟨⟨hmade, h1, h3⟩, hp1, hp3, hdel⟩ := hq
  obtain ⟨hacyc, hroots⟩ := (NestState.run_built hrun hown).outer hmade h1 (by rw [h3]; decide)
    (by rw [hp1]; simp) hp3
  have hdel : s.w.deleteAll [1] = none := Option.isNone_iff_eq_none.mp hdel
  refine ⟨os, s, hrun, hown, hacyc, hroots, hdel, ?_⟩
  rintro ⟨w', hw', -⟩
  rw [hdel] at hw'
  exact absurd hw' (by simp)

end LightTable
