/-
  LightTable.Lua.Discard
  ──────────────────────
  Converting a Lua table, and deleting the result.

  A conversion is a client that keeps to the rules: it makes a table, holds it
  while it fills it, and gives a nested table away as soon as it has it.  So a
  conversion in a session leaves a session with one reference more, to the root
  (`doConvert_hands`).  The tables it makes point to younger ones only
  (`SessionState.Extends`), hence `lighttable.delete` on the root takes away
  these tables and nothing else, with every block that the conversion took
  (`convert_delete_restores`).
-/
import LightTable.Lua.Convert
import LightTable.Table.Session

namespace LightTable

open Fuel Finset Owners Relation

variable {heap : LuaHeap} {t id : Addr} {es rest : List (LuaValue × LuaValue)} {w w' : World}
  {tb : Table} {m : LMap} {tmp : Value} {S S₁ S₂ : SessionState} {st st₁ : Addr → Store}

/-! ## §1. What a conversion adds to a session. -/

/-- No table that is reached holds a light userdata: `set_ud` would take it for
a light table. -/
def LuaHeap.NoUserdata (heap : LuaHeap) (id : Addr) : Prop :=
  ∀ b, ReflTransGen heap.Holds id b → ∀ es, heap b = some es →
    ∀ e ∈ es, ∀ p, e.2 ≠ .lightuserdata p

/-- From `S` to `S'` tables were made, all of which are there; `t` and the new
tables took in new tables only, and younger ones; no other table changed. -/
structure SessionState.Extends (S S' : SessionState) (t : Addr) : Prop where
  beyond : World.Beyond t S.w S'.w
  made : ∀ x ∈ S'.made, x ∈ S.made ∨ S.w.brk ≤ x
  kept : ∀ x ∈ S.made, x ∈ S'.made
  there : ∀ x ∈ S'.made, S.w.brk ≤ x → (S'.w.tables x).isSome
  edges : ∀ x, x = t ∨ S.w.brk ≤ x → ∀ y ∈ S'.w.stores x,
    (x = t ∧ y ∈ S.w.stores t) ∨ (S.w.brk ≤ y ∧ x < y)

theorem World.stores_congr (h : w'.tables t = w.tables t) : w'.stores t = w.stores t := by
  unfold World.stores World.current
  rw [h]

/-- No table is at an address that was not handed out. -/
theorem SessionState.Inv.fresh_none (h : S.Inv st) {x : Addr} (hx : S.w.brk ≤ x) :
    S.w.tables x = none := by
  cases hs : S.w.tables x with
  | none => rfl
  | some tb => exact absurd (h.old x (h.known x (by rw [hs]; rfl))) (Nat.not_lt.mpr hx)

theorem SessionState.Extends.refl (h : S.Inv st) : S.Extends S t where
  beyond := World.Beyond.refl t S.w
  made := fun _ hx => Or.inl hx
  kept := fun _ hx => hx
  there := fun x hx hle => absurd (h.old x hx) (Nat.not_lt.mpr hle)
  edges := by
    intro x hx y hy
    rcases hx with rfl | hx
    · exact Or.inl ⟨rfl, hy⟩
    · rw [World.stores_none (h.fresh_none hx)] at hy
      exact absurd hy (by simp)

theorem SessionState.Extends.trans (h₁ : S.Extends S₁ t) (h₂ : S₁.Extends S₂ t) (ht : t < S.w.brk) :
    S.Extends S₂ t where
  beyond := h₁.beyond.trans h₂.beyond
  made := by
    intro x hx
    rcases h₂.made x hx with hx | hx
    · exact h₁.made x hx
    · exact Or.inr (Nat.le_trans h₁.beyond.brk hx)
  kept := fun x hx => h₂.kept x (h₁.kept x hx)
  there := by
    intro x hx hle
    by_cases hlt : x < S₁.w.brk
    · rw [h₂.beyond.tables x hlt (Nat.ne_of_gt (Nat.lt_of_lt_of_le ht hle))]
      exact h₁.there x ((h₂.made x hx).resolve_right (Nat.not_le.mpr hlt)) hle
    · exact h₂.there x hx (Nat.not_lt.mp hlt)
  edges := by
    intro x hx y hy
    rcases hx with rfl | hx
    · rcases h₂.edges x (Or.inl rfl) y hy with ⟨-, hy⟩ | ⟨hle, hlt⟩
      · exact h₁.edges x (Or.inl rfl) y hy
      · exact Or.inr ⟨Nat.le_trans h₁.beyond.brk hle, hlt⟩
    · have hxt : x ≠ t := Nat.ne_of_gt (Nat.lt_of_lt_of_le ht hx)
      by_cases hlt : x < S₁.w.brk
      · -- a table of the first part is left alone by the second
        rw [World.stores_congr (h₂.beyond.tables x hlt hxt)] at hy
        exact h₁.edges x (Or.inr hx) y hy
      · rcases h₂.edges x (Or.inr (Nat.not_lt.mp hlt)) y hy with ⟨hxt', -⟩ | ⟨hle, hlt⟩
        · exact absurd hxt' hxt
        · exact Or.inr ⟨Nat.le_trans h₁.beyond.brk hle, hlt⟩

/-- A nested call makes tables, and leaves the table of the loop alone. -/
theorem SessionState.Extends.nested (h : S.Extends S₁ S.w.brk) (hs : S.Inv st) (ht : t < S.w.brk) :
    S.Extends S₁ t where
  beyond := { h.beyond with tables := fun a ha _ => h.beyond.tables a ha (Nat.ne_of_lt ha) }
  made := h.made
  kept := h.kept
  there := h.there
  edges := by
    intro x hx y hy
    rcases hx with rfl | hx
    · rw [World.stores_congr (h.beyond.tables x ht (Nat.ne_of_lt ht))] at hy
      exact Or.inl ⟨rfl, hy⟩
    · rcases h.edges x (Or.inr hx) y hy with ⟨-, hy⟩ | hy
      · rw [World.stores_none (hs.fresh_none (Nat.le_refl _))] at hy
        exact absurd hy (by simp)
      · exact Or.inr hy

/-- A setter of `t` stores a new table, or none. -/
theorem SessionState.Extends.set (h : S.Extends S₁ t) (ht : t < S.w.brk) {c : SetCall}
    (hsets : S₁.Sets st₁ t c w') (hb : World.Beyond t S₁.w w')
    (hptr : ∀ u ∈ c.arg.pointer, S.w.brk ≤ u) {held : List Addr} :
    S.Extends { S₁ with w := w', held := held } t := by
  obtain ⟨tb, m, tb', m', hrep, -, hrep', hputs⟩ := hsets.rep
  refine ⟨h.beyond.trans hb, h.made, h.kept, ?_, ?_⟩
  · intro x hx hle
    show (w'.tables x).isSome
    rw [hputs.others x (Nat.ne_of_gt (Nat.lt_of_lt_of_le ht hle))]
    exact h.there x hx hle
  · intro x hx y hy
    have hy : y ∈ w'.stores x := hy
    by_cases hxt : x = t
    · subst hxt
      rw [hrep'.toOwns.stores, ← List.count_pos_iff, hputs.pointers] at hy
      by_cases hold : y ∈ S₁.w.stores x
      · exact h.edges x (Or.inl rfl) y hold
      · rw [hrep.toOwns.stores, ← List.count_eq_zero] at hold
        rw [hold, Nat.add_zero, List.count_pos_iff, Option.mem_toList] at hy
        exact Or.inr ⟨hptr y hy, Nat.lt_of_lt_of_le ht (hptr y hy)⟩
    · rw [World.stores_congr (hputs.others x hxt)] at hy
      exact h.edges x hx y hy

/-- A call: the new table, and what its loop did. -/
theorem SessionState.Extends.call (hs : S.Inv st) (hb : World.Beyond S.w.brk S.w S₁.w)
    (hmade : S₁.made = S.w.brk :: S.made)
    (hstores : S₁.w.stores S.w.brk = []) (hnone : ∀ x, S.w.brk < x → S₁.w.tables x = none)
    (h : S₁.Extends S₂ S.w.brk) (hroot : (S₂.w.tables S.w.brk).isSome) :
    S.Extends S₂ S.w.brk where
  beyond := hb.trans h.beyond
  made := by
    intro x hx
    rcases h.made x hx with hx | hx
    · rw [hmade] at hx
      rcases List.mem_cons.mp hx with rfl | hx
      · exact Or.inr (Nat.le_refl _)
      · exact Or.inl hx
    · exact Or.inr (Nat.le_trans hb.brk hx)
  kept := fun x hx => h.kept x (by rw [hmade]; exact List.mem_cons_of_mem _ hx)
  there := by
    intro x hx hle
    rcases h.made x hx with hx' | hx'
    · rw [hmade] at hx'
      rcases List.mem_cons.mp hx' with rfl | hx'
      · exact hroot
      · exact absurd (hs.old x hx') (Nat.not_lt.mpr hle)
    · exact h.there x hx hx'
  edges := by
    intro x hx y hy
    have hle : S.w.brk ≤ x := by
      rcases hx with rfl | hx
      · exact Nat.le_refl _
      · exact hx
    by_cases hxt : x = S.w.brk
    · rcases h.edges x (Or.inl hxt) y hy with ⟨-, hold⟩ | ⟨hy, hxy⟩
      · rw [hstores] at hold
        exact absurd hold (by simp)
      · exact Or.inr ⟨Nat.le_trans hb.brk hy, hxy⟩
    · by_cases hlt₁ : x < S₁.w.brk
      · -- the rest of what the table itself took
        have hxlt : S.w.brk < x := Nat.lt_of_le_of_ne hle (Ne.symm hxt)
        rw [World.stores_none ((h.beyond.tables x hlt₁ hxt).trans (hnone x hxlt))] at hy
        exact absurd hy (by simp)
      · rcases h.edges x (Or.inr (Nat.not_lt.mp hlt₁)) y hy with ⟨hxt', -⟩ | ⟨hy, hxy⟩
        · exact absurd hxt' hxt
        · exact Or.inr ⟨Nat.le_trans hb.brk hy, hxy⟩

/-! ## §2. The loop and the recursion. -/

/-- The type of what an absent key holds. -/
theorem World.Rep.typeAt_absent {σ : Store} (h : w.Rep t σ tb m) {key : Key} (habs : σ key = none) :
    m.typeAt key = .nil := (h.typeAt_eq_nil key).mpr habs

theorem handOver_plain {held : List Addr} {c : SetCall} (h : c.arg.pointer = none) :
    handOver held c = held := by
  unfold handOver
  rw [h]

theorem handOver_pointer {held : List Addr} {c : SetCall} {u : Addr} (h : c.arg.pointer = some u) :
    handOver (u :: held) c = held := by
  unfold handOver
  rw [h]
  exact List.erase_cons_head u held

/-- A setter call on an absent key, in a session. -/
theorem SessionState.Inv.put_new (hs : S₁.Inv st₁) (hext : S.Extends S₁ t) (ht : t < S.w.brk)
    {σ : Store} (hrep : S₁.w.Rep t σ tb m) {c : SetCall} (hshort : c.key.Short)
    (habs : σ c.key = none) (hb : S₁.w.bucketsAsked t c < 2147483648)
    (hptr : ∀ u ∈ c.arg.pointer, S.w.brk ≤ u ∧ u ∈ S₁.held) :
    ∃ (S₂ : SessionState) (st₂ : Addr → Store) (tb' : Table) (m' : LMap),
      S₁.w.set t c = some (0, S₂.w) ∧ S₂.Inv st₂ ∧ S₂.held = handOver S₁.held c ∧ S.Extends S₂ t
        ∧ World.Beyond t S₁.w S₂.w ∧ S₂.w.Rep t (σ.put c.key c.arg) tb' m' := by
  obtain ⟨w', tb', m', hset, hrep', -, hbeyond⟩ := hrep.put_new hs.tidy hshort.fits habs hb
  have hnil := hrep.typeAt_absent habs
  have hproper : S₁.Proper (.set t c) :=
    ⟨m, hrep.toOwns.current, hshort, Or.inl hnil, hb, fun u hu => ⟨hnil, (hptr u hu).2⟩⟩
  have htl : t ∈ S₁.live := by
    rw [hs.live_iff, hrep.table]
    rfl
  obtain ⟨w₁, hset₁, hsets⟩ := hs.sets htl hproper
  obtain ⟨w₂, hset₂, hinv⟩ := hs.set hproper
  rw [hset] at hset₁ hset₂
  cases hset₁
  cases hset₂
  exact ⟨{ S₁ with w := w', held := handOver S₁.held c }, _, tb', m', hset, hinv, rfl,
    hext.set ht hsets hbeyond (fun u hu => (hptr u hu).1), hbeyond, hrep'⟩

/-- What a call of `do_convert` does to a session: a new root, held. -/
def Hands (S : SessionState) (result : Option (Outcome Addr × World)) : Prop :=
  ∃ (S' : SessionState) (st' : Addr → Store), result = some (.ok S.w.brk, S'.w) ∧ S'.Inv st'
    ∧ S'.held = S.w.brk :: S.held ∧ S.Extends S' S.w.brk

variable {subL : Addr → World → Option (Outcome Addr × World)} {subAlong : Addr → World → Prop} {d : Nat}

/-- The loop gives every nested table away and holds what it held. -/
theorem convertEntries_hands (hes : heap id = some es)
    (hplain : ∀ e ∈ es, ∀ p, e.2 ≠ .lightuserdata p)
    (hsub : ∀ id', heap.Holds id id' → ∀ S st, SessionState.Inv S st → subAlong id' S.w →
      Hands S (subL id' S.w)) (rest : List (LuaValue × LuaValue)) :
    ∀ (S : SessionState) (st : Addr → Store) (σ : Store) (tb : Table) (m : LMap), rest <:+ es →
      Pending σ rest → S.Inv st → S.w.Rep t σ tb m → t < S.w.brk →
      EntriesAlong tmp (World.BucketsFit tmp) subL subAlong d t rest S.w →
      ∃ (S' : SessionState) (st' : Addr → Store),
        convertEntries tmp subL t rest S.w = some (.ok (), S'.w) ∧ S'.Inv st' ∧ S'.held = S.held
          ∧ S.Extends S' t ∧ (S'.w.tables t).isSome := by
  induction rest with
  | nil =>
      intro S st σ tb m _ _ hs hrep _ _
      exact ⟨S, st, rfl, hs, rfl, .refl hs, by rw [hrep.table]; rfl⟩
  | cons e rest ih =>
      intro S st σ tb m hsuffix hpending hs hrep ht halong
      obtain ⟨k, v⟩ := e
      have hrest : rest <:+ es := (List.suffix_cons _ rest).trans hsuffix
      obtain ⟨⟨key, hk⟩, hv⟩ := hpending.entries (k, v) List.mem_cons_self
      have habs := hpending.absent (k, v) List.mem_cons_self key hk
      have hgk := hk.getKey
      rcases hv with hv | ⟨id', hv⟩
      · -- one call of a setter
        obtain ⟨a, ha⟩ := Option.ne_none_iff_exists'.mp hv
        have ha : v.arg = some a := ha
        have hnot := LuaValue.not_table_of_arg ha
        have hstored : v.stored = some a := by
          cases v with
          | table id' => exact absurd rfl (hnot id')
          | _ => exact ha
        have hnone : a.pointer = none := by
          cases v with
          | lightuserdata p => exact absurd rfl (hplain _ (hsuffix.subset List.mem_cons_self) p)
          | number n => cases ha; rfl
          | boolean b => cases ha; rfl
          | string s => cases ha; rfl
          | _ => cases ha
        obtain ⟨S₁, st₁, tb₁, m₁, hset, hs₁, hheld, hext, hb₁, hrep₁⟩ :=
          hs.put_new (c := ⟨key, a, tmp⟩) (.refl hs) ht hrep hk.short habs
            (halong.1 key hk.okKey a hstored) (fun u hu => by rw [hnone] at hu; cases hu)
        rw [handOver_plain hnone] at hheld
        have hsetv : S.w.setValue t key v tmp = some (.ok (), S₁.w) := by
          rw [World.setValue_arg ha, hset]
          rfl
        have hrestAlong := ((entriesAlong_scalar hgk hnot hsetv).mp halong).2
        obtain ⟨S', st', hloop, hs', hheld', hext', hsome⟩ := ih S₁ st₁ _ tb₁ m₁ hrest
          (hpending.tail hk a) hs₁ hrep₁ (Nat.lt_of_lt_of_le ht hb₁.brk) hrestAlong
        refine ⟨S', st', ?_, hs', hheld'.trans hheld, hext.trans hext' ht, hsome⟩
        rw [convertEntries_scalar hgk hnot, hsetv]
        exact hloop
      · -- a nested call, and `set_ud` of the table that it made
        have hv : v = .table id' := hv
        subst hv
        have hholds : heap.Holds id id' := ⟨es, k, hes, hsuffix.subset List.mem_cons_self⟩
        obtain ⟨S₁, st₁, hcall, hs₁, hheld, hext⟩ := hsub id' hholds S st hs
          (halong.2.1 id' (nestedTable_table hgk))
        have hrep₁ := hrep.beyond hext.beyond ht (Nat.ne_of_lt ht)
        have hbuckets : S₁.w.bucketsAsked t ⟨key, .ud S.w.brk, tmp⟩ < 2147483648 := by
          have hfit := halong.1 key hk.okKey (.ud 0) rfl
          unfold World.bucketsAsked at hfit ⊢
          rw [hrep.toOwns.current] at hfit
          rw [hrep₁.toOwns.current]
          exact hfit
        have hown : ∀ u ∈ (Arg.ud S.w.brk).pointer, S.w.brk ≤ u ∧ u ∈ S₁.held := by
          intro u hu
          obtain rfl : S.w.brk = u := Option.mem_some_iff.mp hu
          exact ⟨Nat.le_refl _, by rw [hheld]; exact List.mem_cons_self⟩
        obtain ⟨S₂, st₂, tb₂, m₂, hset, hs₂, hheld₂, hext₂, hb₂, hrep₂⟩ :=
          hs₁.put_new (c := ⟨key, .ud S.w.brk, tmp⟩) (hext.nested hs ht) ht hrep₁ hk.short habs
            hbuckets hown
        rw [hheld, handOver_pointer rfl] at hheld₂
        have hset : S₁.w.setUd t key tmp S.w.brk = some (0, S₂.w) := hset
        have hrestAlong := ((entriesAlong_table hgk hcall hset).mp halong).2.2
        obtain ⟨S', st', hloop, hs', hheld', hext', hsome⟩ := ih S₂ st₂ _ tb₂ m₂ hrest
          (hpending.tail hk (.ud S.w.brk)) hs₂ hrep₂
          (Nat.lt_of_lt_of_le ht (Nat.le_trans hext.beyond.brk hb₂.brk)) hrestAlong
        refine ⟨S', st', ?_, hs', hheld'.trans hheld₂, hext₂.trans hext' ht, hsome⟩
        rw [convertEntries_table hgk, hcall, Option.bind_some]
        simp only [hset, Option.bind_some]
        exact hloop

/-- A call hands out a new root when the calls on the nested tables do. -/
theorem doConvert_hands_succ {n : Nat} (hlawful : heap.Lawful) (hes : heap id = some es)
    (hentries : ∀ e ∈ es, ConvertibleEntry e) (hplain : ∀ e ∈ es, ∀ p, e.2 ≠ .lightuserdata p)
    (hsub : ∀ id', heap.Holds id id' → ∀ S st, SessionState.Inv S st →
      ConvertAlong tmp heap (World.BucketsFit tmp) n (d + 1) id' S.w →
      Hands S (doConvert tmp heap n id' S.w)) (hs : S.Inv st)
    (halong : ConvertAlong tmp heap (World.BucketsFit tmp) (n + 1) d id S.w) :
    Hands S (doConvert tmp heap (n + 1) id S.w) := by
  obtain ⟨w₀, hnew, hs₀⟩ := hs.create
  obtain ⟨-, -, hls, hsl, -, hother, -⟩ := World.of_newTable hnew
  obtain ⟨tb, hrep₀⟩ := World.Rep.newTable hnew
  obtain ⟨-, hl₀, hlt, -⟩ := World.newTable_leaves hs.tidy hnew
  have hb₀ : World.Beyond S.w.brk S.w w₀ :=
    { hl₀ with lstrings := fun a _ => by rw [hls], slots := fun a _ => by rw [hsl] }
  have hpending : Pending Store.empty es :=
    { entries := hentries
      distinct := (hlawful id es hes).2
      absent := fun _ _ _ _ => rfl }
  obtain ⟨S', st', hloop, hs', hheld, hext, hroot⟩ := convertEntries_hands hes hplain hsub es
    { w := w₀, made := S.w.brk :: S.made, held := S.w.brk :: S.held } st Store.empty tb _
    (List.suffix_refl es) hpending hs₀ hrep₀ hlt (halong es hes (S.w.brk, w₀) hnew)
  refine ⟨S', st', ?_, hs', hheld, .call hs hb₀ rfl hrep₀.toOwns.stores ?_ hext hroot⟩
  · rw [doConvert_succ hes hnew, hloop]
    rfl
  · exact fun x hx => (hother x (Nat.ne_of_gt hx)).trans (hs.fresh_none (Nat.le_of_lt hx))

/-- `do_convert` in a session. -/
theorem doConvert_hands {L : Finset Addr} (hlawful : heap.Lawful) (hc : heap.Convertible id L)
    (hplain : heap.NoUserdata id) (hs : S.Inv st)
    (halong : ConvertAlong tmp heap (World.BucketsFit tmp) L.card 0 id S.w) :
    Hands S (doConvert tmp heap L.card id S.w) := by
  have hall : ReflTransGen heap.Holds id id → ∀ d S st, SessionState.Inv S st →
      ConvertAlong tmp heap (World.BucketsFit tmp) L.card d id S.w →
      Hands S (doConvert tmp heap L.card id S.w) := by
    refine ends_of_acyclic (G := heap.Holds) (P := fun n a => ReflTransGen heap.Holds id a →
      ∀ d S st, SessionState.Inv S st → ConvertAlong tmp heap (World.BucketsFit tmp) n d a S.w →
      Hands S (doConvert tmp heap n a S.w)) ?_ L.card id L (Nat.le_refl _) hc.finite hc.acyclic
    intro n a hsub ha d S st hs halong
    obtain ⟨es, hes, hentries⟩ := hc.tables a ha
    exact doConvert_hands_succ hlawful hes hentries (hplain a ha es hes)
      (fun id' hid' S st hs h => hsub id' hid' (ha.tail hid') (d + 1) S st hs h) hs halong
  exact hall .refl 0 S st hs halong

/-! ## §3. Deleting the root. -/

/-- The tables that were made. -/
def SessionState.newTables (S S' : SessionState) : Finset Addr :=
  S'.live.filter (fun x => S.w.brk ≤ x)

variable {S' : SessionState} {st' : Addr → Store} {x : Addr}

theorem SessionState.mem_newTables : x ∈ S.newTables S' ↔ x ∈ S'.live ∧ S.w.brk ≤ x := by
  unfold SessionState.newTables
  rw [Finset.mem_filter]

/-- What the client holds, and what a live table stores, was there. -/
theorem SessionState.Inv.lt_of_refs (h : S.Inv st) (hx : 0 < S.refs x) : x < S.w.brk :=
  h.old x (SessionState.mem_live.mp ((h.counts x).mpr hx)).1

/-- A table of before stores what it stored. -/
theorem SessionState.Extends.old_stores (h : S.Extends S' S.w.brk) (hx : x < S.w.brk) :
    S'.w.stores x = S.w.stores x :=
  World.stores_congr (h.beyond.tables x hx (Nat.ne_of_lt hx))

/-- A new table stores younger ones. -/
theorem SessionState.Extends.new_stores (h : S.Extends S' S.w.brk) (hs : S.Inv st)
    (hx : S.w.brk ≤ x) {y : Addr} (hy : y ∈ S'.w.stores x) : S.w.brk ≤ y ∧ x < y := by
  rcases h.edges x (Or.inr hx) y hy with ⟨-, hold⟩ | hnew
  · rw [World.stores_none (hs.fresh_none (Nat.le_refl _))] at hold
    exact absurd hold (by simp)
  · exact hnew

/-- Only the new tables and the client refer to the new tables, and to them
only. -/
theorem SessionState.Extends.refs_new (h : S.Extends S' S.w.brk) (hs : S.Inv st)
    (hheld : S'.held = S.w.brk :: S.held) (x : Addr) :
    Owners.refs S'.w.stores (S.newTables S') [S.w.brk] x = if S.w.brk ≤ x then S'.refs x else 0 := by
  unfold SessionState.newTables
  by_cases hx : S.w.brk ≤ x
  · rw [if_pos hx]
    have hout : S.held.count x = 0 := by
      refine List.count_eq_zero.mpr (fun hmem => Nat.not_lt.mpr hx (hs.lt_of_refs ?_))
      exact Nat.lt_of_lt_of_le (List.count_pos_iff.mpr hmem) (Nat.le_add_right _ _)
    have hold : ∀ p ∈ S'.live, ¬ S.w.brk ≤ p → (S'.w.stores p).count x = 0 := by
      intro p hp hlt
      have hlt := Nat.not_le.mp hlt
      rw [h.old_stores hlt]
      refine List.count_eq_zero.mpr (fun hmem => Nat.not_lt.mpr hx (hs.lt_of_refs ?_))
      have hpl : p ∈ S.live := by
        by_contra hn
        rw [World.stores_none (hs.none_of_not_live hn)] at hmem
        exact absurd hmem (by simp)
      exact refs_pos_of_owns hpl hmem S.held
    show [S.w.brk].count x + _ = S'.held.count x + ∑ p ∈ S'.live, (S'.w.stores p).count x
    rw [hheld, List.count_cons, List.count_cons, hout, List.count_nil,
      ← Finset.sum_filter_add_sum_filter_not S'.live (fun p => S.w.brk ≤ p),
      Finset.sum_eq_zero (s := S'.live.filter (fun p => ¬ S.w.brk ≤ p))
        (fun p hp => hold p (Finset.mem_filter.mp hp).1 (Finset.mem_filter.mp hp).2), Nat.add_zero]
  · rw [if_neg hx]
    have hne : S.w.brk ≠ x := fun heq => hx (Nat.le_of_eq heq)
    unfold Owners.refs
    rw [List.count_singleton, if_neg (by simpa using hne), Nat.zero_add]
    refine Finset.sum_eq_zero ?_
    intro p hp
    refine List.count_eq_zero.mpr (fun hmem => hx ?_)
    exact (h.new_stores hs (Finset.mem_filter.mp hp).2 hmem).1

/-- The new tables stand by themselves, with one reference from outside. -/
theorem SessionState.Extends.stands (h : S.Extends S' S.w.brk) (hs : S.Inv st) (hs' : S'.Inv st')
    (hheld : S'.held = S.w.brk :: S.held) :
    S'.w.snapshot.Stands S'.w (S.newTables S') [S.w.brk] [] where
  rest := by
    intro x hx
    obtain ⟨hlive, hle⟩ := SessionState.mem_newTables.mp hx
    have hrest := hs'.stands.rest x hlive
    rw [World.snapshot_pointers] at hrest ⊢
    rw [h.refs_new hs hheld, if_pos hle]
    exact hrest
  live := by
    intro x
    rw [World.snapshot_pointers, h.refs_new hs hheld, SessionState.mem_newTables, hs'.counts]
    by_cases hle : S.w.brk ≤ x
    · rw [if_pos hle]
      exact ⟨fun hx => hx.1, fun hx => ⟨hx, hle⟩⟩
    · rw [if_neg hle]
      exact ⟨fun hx => absurd hx.2 hle, fun hx => absurd hx (Nat.lt_irrefl 0)⟩
  small := by
    intro x
    rw [World.snapshot_pointers, h.refs_new hs hheld]
    by_cases hle : S.w.brk ≤ x
    · rw [if_pos hle]
      exact hs'.small x
    · rw [if_neg hle]
      exact Nat.two_pow_pos 31
  apart := by
    intro a
    have hall := hs'.stands.apart a
    have hsub : ∑ x ∈ S.newTables S', (S'.w.snapshot.blocks x).count a
        ≤ ∑ x ∈ S'.live, (S'.w.snapshot.blocks x).count a :=
      Finset.sum_le_sum_of_subset (Finset.filter_subset _ _)
    omega

/-- From `w` by a conversion to `w₁` and by a `delete` to `w₂`: the tables `N`
were made, and destroyed once; the tables are those of before, and what was
handed out has been freed, once. -/
structure World.Undone (w w₁ w₂ : World) (N : Finset Addr) : Prop where
  brk : w.brk ≤ w₂.brk
  fresh : ∀ x ∈ N, w.tables x = none ∧ (w₁.tables x).isSome
  others : ∀ x, x ∉ N → w₁.tables x = w.tables x
  tables : w₂.tables = w.tables
  destroyed : ∀ x, w₂.destroyed.count x = w.destroyed.count x + if x ∈ N then 1 else 0
  freed : ∀ a, w₂.freed.count a = w.freed.count a + handedOut w.brk w₂.brk a
  strings : ∀ a, (∃ t, a ∈ w.blocksOf t) → w₂.lstrings a = w.lstrings a ∧ w₂.slots a = w.slots a

/-- The blocks of the tables of before. -/
theorem SessionState.Extends.old_blocks (h : S.Extends S' S.w.brk) (hs : S.Inv st) (hx : x ∈ S.live) :
    S'.w.blocksOf x = S.w.blocksOf x := by
  obtain ⟨tb, m, hrep, -⟩ := hs.rep x hx
  have hlt := hs.old x (SessionState.mem_live.mp hx).1
  refine (hrep.stays (h.beyond.tables x hlt (Nat.ne_of_lt hlt)) h.beyond.brk ?_).2.2
  intro a ha
  have hlt := hs.below hx (hrep.toOwns.mem_blocksOf ha)
  exact ⟨h.beyond.lstrings a hlt, h.beyond.slots a hlt⟩

/-- The tables of before are there. -/
theorem SessionState.Extends.old_live (h : S.Extends S' S.w.brk) (hs : S.Inv st) (hs' : S'.Inv st') :
    S'.live.filter (fun x => ¬ S.w.brk ≤ x) = S.live := by
  ext x
  rw [Finset.mem_filter, hs'.live_iff, hs.live_iff]
  constructor
  · rintro ⟨hx, hlt⟩
    have hlt := Nat.not_le.mp hlt
    rwa [h.beyond.tables x hlt (Nat.ne_of_lt hlt)] at hx
  · intro hx
    have hlt := hs.old x (hs.known x hx)
    rw [h.beyond.tables x hlt (Nat.ne_of_lt hlt)]
    exact ⟨hx, Nat.not_le.mpr hlt⟩

/-- `lighttable.delete` of the root. -/
theorem SessionState.Extends.delete (h : S.Extends S' S.w.brk) (hs : S.Inv st) (hs' : S'.Inv st')
    (hheld : S'.held = S.w.brk :: S.held) :
    ∃ w₂, S'.w.delete S.w.brk = some w₂ ∧ S.w.Undone S'.w w₂ (S.newTables S') := by
  have hstands := h.stands hs hs' hheld
  have hup : ∀ p ∈ S.newTables S', ∀ y ∈ S'.w.snapshot.pointers p, p < y := by
    intro p hp y hy
    rw [World.snapshot_pointers] at hy
    exact (h.new_stores hs (SessionState.mem_newTables.mp hp).2 hy).2
  -- nothing points to the root
  have hlast : Owners.refs S'.w.snapshot.pointers (S.newTables S') [] S.w.brk = 0 := by
    unfold Owners.refs
    rw [List.count_nil, Nat.zero_add]
    refine Finset.sum_eq_zero ?_
    intro p hp
    refine List.count_eq_zero.mpr (fun hmem => ?_)
    exact Nat.not_lt.mpr (SessionState.mem_newTables.mp hp).2 (hup p hp _ hmem)
  have hcard : (S.newTables S').card ≤ S'.w.brk + 1 :=
    Nat.le_succ_of_le (Nat.le_trans (Finset.card_le_card (Finset.filter_subset _ _)) hs'.card_le)
  obtain ⟨w₂, L', hrun, -, hs₂, hl⟩ :=
    (releaseFuel_lets S'.w.snapshot S'.w.brk).deleteTable (hstands.dying hlast) hcard
  obtain rfl : L' = ∅ :=
    eq_empty_of_lt (fun p hp => hup p (hl.sub hp)) (fun x hx => (hs₂.live x).mp hx)
  have hnew : ∀ x, S.w.brk ≤ x → S.w.tables x = none := fun x hx => hs.fresh_none hx
  have hothers : ∀ x, x ∉ S.newTables S' → S'.w.tables x = S.w.tables x := by
    intro x hx
    by_cases hle : S.w.brk ≤ x
    · rw [hnew x hle]
      exact hs'.none_of_not_live (fun hlive => hx (SessionState.mem_newTables.mpr ⟨hlive, hle⟩))
    · exact h.beyond.tables x (Nat.not_le.mp hle) (Nat.ne_of_lt (Nat.not_le.mp hle))
  refine ⟨w₂, hrun, by rw [hl.brk]; exact h.beyond.brk, ?_, hothers, ?_, ?_, ?_, ?_⟩
  · intro x hx
    obtain ⟨hlive, hle⟩ := SessionState.mem_newTables.mp hx
    exact ⟨hnew x hle, hs'.live_iff.mp hlive⟩
  · funext x
    by_cases hx : x ∈ S.newTables S'
    · rw [hl.gone x hx (Finset.notMem_empty x), hnew x (SessionState.mem_newTables.mp hx).2]
    · rw [hl.others x hx, hothers x hx]
  · intro x
    have hlog := hl.log x
    rw [if_neg (Finset.notMem_empty x), h.beyond.destroyed] at hlog
    exact hlog
  · intro a
    have hfreed := hl.freed a
    have hsum := hs.accounts a
    have hsum' := hs'.accounts a
    have hadd := handedOut_add hs.pos h.beyond.brk a
    rw [← Finset.sum_filter_add_sum_filter_not S'.live (fun x => S.w.brk ≤ x), h.old_live hs hs',
      Finset.sum_congr rfl (fun x hx => congrArg (List.count a) (h.old_blocks hs hx))] at hsum'
    rw [Finset.sum_empty, List.count_nil] at hfreed
    have hblocks : ∑ x ∈ S.newTables S', (S'.w.snapshot.blocks x).count a
        = ∑ x ∈ S'.live.filter (fun x => S.w.brk ≤ x), (S'.w.blocksOf x).count a := rfl
    rw [hl.brk]
    omega
  · rintro a ⟨t, ha⟩
    have htl : t ∈ S.live := by
      by_contra hn
      unfold World.blocksOf at ha
      rw [hs.none_of_not_live hn] at ha
      exact absurd ha (by simp)
    have hlt := hs.below htl ha
    have htl' : t ∈ S'.live := (Finset.mem_filter.mp (by rw [h.old_live hs hs']; exact htl)).1
    have hkept := hl.strings a ?_ (by simp)
    · rw [hkept.1, hkept.2]
      exact ⟨h.beyond.lstrings a hlt, h.beyond.slots a hlt⟩
    · intro x hx _ hax
      obtain ⟨hxl, hle⟩ := SessionState.mem_newTables.mp hx
      have hne : x ≠ t := fun hxt => Nat.not_lt.mpr hle (by rw [hxt]; exact hs.old t (SessionState.mem_live.mp htl).1)
      refine hs'.disjoint hxl htl' hne hax ?_
      rw [h.old_blocks hs htl]
      exact ha

/-- Converting a Lua table in a session and deleting the root: the conversion
goes through, and then all that it made is gone, every block of it freed once;
the tables of before are there and read as before. -/
theorem convert_delete_restores {steps : List SessionStep} {os : List Int} {L : Finset Addr}
    (hp : Run.Along SessionState.step SessionState.Proper .start steps)
    (hx : Run.run SessionState.step .start steps = some (os, S)) (hlawful : heap.Lawful)
    (hc : heap.Convertible id L) (hplain : heap.NoUserdata id)
    (halong : ConvertAlong tmp heap (World.BucketsFit tmp) L.card 0 id S.w) :
    ∃ root w₁ w₂ N, doConvert tmp heap L.card id S.w = some (.ok root, w₁)
      ∧ w₁.delete root = some w₂ ∧ root ∈ N ∧ S.w.Undone w₁ w₂ N
      ∧ ∀ t ∈ S.live, ∀ key, w₂.ReadsAs t key (lastSet (callsOn t steps) key) := by
  have hs := SessionState.inv_of_run hp hx
  obtain ⟨S', st', hconv, hs', hheld, hext⟩ := doConvert_hands hlawful hc hplain hs halong
  obtain ⟨w₂, hdel, hundone⟩ := hext.delete hs hs' hheld
  have hroot : S.w.brk ∈ S.newTables S' := by
    refine SessionState.mem_newTables.mpr ⟨?_, Nat.le_refl _⟩
    rw [hs'.counts]
    refine Nat.lt_of_lt_of_le (List.count_pos_iff.mpr ?_) (Nat.le_add_right _ _)
    rw [hheld]
    exact List.mem_cons_self
  refine ⟨S.w.brk, S'.w, w₂, S.newTables S', hconv, hdel, hroot, hundone, ?_⟩
  intro t ht key
  obtain ⟨tb, m, hrep, -⟩ := hs.rep t ht
  have htable : w₂.tables t = S.w.tables t := congrFun hundone.tables t
  have hstays := hrep.stays htable hundone.brk
    (fun a ha => hundone.strings a ⟨t, hrep.toOwns.mem_blocksOf ha⟩)
  exact hstays.1.readsAs key

theorem sharedHeap_noUserdata : sharedHeap.NoUserdata 1 := by
  intro b hb es hes e he p
  rcases Finset.mem_insert.mp (sharedHeap_finite hb) with rfl | hb
  · cases hes
    rcases List.mem_cons.mp he with rfl | he
    · exact fun h => nomatch h
    · rw [List.mem_singleton.mp he]
      exact fun h => nomatch h
  · rw [Finset.mem_singleton.mp hb] at hes
    cases hes
    rw [List.mem_singleton.mp he]
    exact fun h => nomatch h

/-- Beside a table that holds a string. -/
theorem convert_delete_restores_shared :
    ∃ (S : SessionState) (root : Addr) (w₁ w₂ : World) (N : Finset Addr),
      doConvert .blank sharedHeap ({1, 2} : Finset Addr).card 1 S.w = some (.ok root, w₁)
      ∧ w₁.delete root = some w₂ ∧ root ∈ N ∧ S.w.Undone w₁ w₂ N
      ∧ ∀ t ∈ S.live, ∀ key, w₂.ReadsAs t key (lastSet (callsOn t
        [.create, .set 1 ⟨.num 7, .string [97], .blank⟩]) key) := by
  have hgo : (Run.run SessionState.step .start [.create, .set 1 ⟨.num 7, .string [97], .blank⟩]).map
      (fun p => decide (ConvertAlong .blank sharedHeap (World.BucketsFit .blank)
        ({1, 2} : Finset Addr).card 0 1 p.2.w)) = some true := by decide +kernel
  obtain ⟨⟨os, S⟩, hrun, halong⟩ := Option.map_eq_some_iff.mp hgo
  exact ⟨S, convert_delete_restores (by decide +kernel) hrun sharedHeap_lawful
    sharedHeap_convertible sharedHeap_noUserdata (of_decide_eq_true halong)⟩

end LightTable
