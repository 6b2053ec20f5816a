/-
  LightTable.Table.Effects
  ────────────────────────
  What one setter call does to the current map, and what follows for every
  table that setter calls reach.

  A call goes one of four ways (`World.Sound.set_case`).  It either leaves the
  map as it is (`set_string` on a key that is there), or it inserts: one union
  is overwritten or one node is linked, and an insert that walks
  `MAX_HASH_DEPTH` nodes is followed by a doubling (`World.Sound.set_effect`).
  The representation invariant and the fill counter are read off these cases.
-/
import LightTable.Table.Reach

namespace LightTable

open ChainedHash

variable {w w₀ w' : World} {t : Addr} {tb : Table} {m m' : LMap} {c : SetCall}

/-! ## §1. One call. -/

/-- The call inserts: `set_string` only when it finds no value. -/
def LMap.Inserts (m : LMap) (c : SetCall) : Prop :=
  c.arg.type = .string → m.typeAt c.key = .nil

/-- The call inserts and walks enough nodes to make the map grow. -/
def LMap.Expands (m : LMap) (c : SetCall) : Prop :=
  m.Inserts c ∧ maxHashDepth ≤ m.depth c.key

instance (m : LMap) (c : SetCall) : Decidable (m.Inserts c) :=
  inferInstanceAs (Decidable (_ → _))

instance (m : LMap) (c : SetCall) : Decidable (m.Expands c) :=
  inferInstanceAs (Decidable (_ ∧ _))

theorem LMap.Inserts.expands_iff (hi : m.Inserts c) :
    m.Expands c ↔ maxHashDepth ≤ m.depth c.key :=
  ⟨fun h => h.2, fun hd => ⟨hi, hd⟩⟩

/-- The four ways a call goes. -/
inductive World.SetCase (w : World) (t : Addr) (m : LMap) (c : SetCall) (w' : World) : Prop where
  /-- `set_string` finds a value of another type. -/
  | refused (hty : c.arg.type = .string) (n : Node) (hn : m.find c.key = some n)
      (hne : n.v.type ≠ .string) (hw : w' = w)
  /-- `set_string` finds a string and swaps its slot. -/
  | swapped (str : Bytes) (harg : c.arg = .string str) (n : Node) (hn : m.find c.key = some n)
      (hty : n.v.type = .string) (hup : w.updateString n.v.v str = some w')
  /-- `set_string` finds nothing and inserts a new lstring. -/
  | insertedString (str : Bytes) (harg : c.arg = .string str) (hn : m.find c.key = none)
      (type : LType)
      (hins : (w.withString str).insertTable t c.key
        { c.tmp with type := .string, v := w.brk } = some (type, w'))
  /-- The other setters insert without looking first. -/
  | insertedPlain (hty : c.arg.type ≠ .string) (type : LType)
      (hins : w.insertTable t c.key { c.tmp with type := c.arg.type, v := c.arg.word c.tmp }
        = some (type, w'))

/-- A call that returns goes one of the four ways. -/
theorem World.Sound.set_case (h : w.Sound t tb m) {r : Int} (hx : w.set t c = some (r, w')) :
    w.SetCase t m c w' := by
  by_cases hc : c.arg.type = .string
  · obtain ⟨str, hstr⟩ := Arg.eq_string hc
    cases hf : m.find c.key with
    | some n =>
      by_cases hty : n.v.type = .string
      · rw [h.toOwns.set_swaps h.wf hstr hf hty] at hx
        obtain ⟨w₁, hup, hx⟩ := Option.map_eq_some_iff.mp hx
        cases hx
        exact .swapped str hstr n hf hty hup
      · rw [h.toOwns.set_refuses h.wf hstr hf hty] at hx
        cases hx
        exact .refused hc n hf hty rfl
    | none =>
      rw [h.toOwns.set_inserts h.wf hstr hf] at hx
      obtain ⟨⟨type, w₁⟩, hins, hx⟩ := Option.map_eq_some_iff.mp hx
      cases hx
      exact .insertedString str hstr hf type hins
  · rw [World.set_of_plain hc] at hx
    obtain ⟨⟨type, w₁⟩, hins, hx⟩ := Option.bind_eq_some_iff.mp hx
    cases hx
    exact .insertedPlain hc type hins

/-- The value an inserting call hands to `_insert_table`; the union of a
string is the address of its new lstring. -/
structure Arg.Written (a : Arg) (tmp v : Value) : Prop where
  type : v.type = a.type
  word : a.type ≠ .string → v.v = a.word tmp

/-- The current map before and after a call. -/
inductive LMap.Effect (m : LMap) (c : SetCall) (m' : LMap) : Prop where
  | same (h : ¬ m.Inserts c) (hm : m' = m)
  | inserted (h : m.Inserts c) (brk : Addr) (v : Value) (hv : c.arg.Written c.tmp v)
      (hg : (m.inserted brk c.key v).Grown (maxHashDepth ≤ m.depth c.key) m')
      (hr : maxHashDepth ≤ m.depth c.key → (m.inserted brk c.key v).Ready)

theorem LMap.Wf.not_inserts (hm : m.Wf) (hc : c.arg.type = .string) {n : Node}
    (hn : m.find c.key = some n) : ¬ m.Inserts c := by
  intro hi
  have hnil := hi hc
  rw [LMap.typeAt_found hn] at hnil
  exact hm.type n (LMap.find_mem hn).1 hnil

/-- What one call does to the table. -/
theorem World.Sound.set_effect (h : w.Sound t tb m) {r : Int} (hx : w.set t c = some (r, w')) :
    ∃ tb' m', w'.Sound t tb' m' ∧ m.Effect c m' := by
  cases h.set_case hx with
  | refused hc n hn hty hw =>
    rw [hw]
    exact ⟨tb, m, h, .same (h.wf.not_inserts hc hn) rfl⟩
  | swapped str harg n hn hty hup =>
    exact ⟨tb, m, (h.updateString hup).1, .same (h.wf.not_inserts (by rw [harg]; rfl) hn) rfl⟩
  | insertedString str harg hn type hins =>
    obtain ⟨-, -, tb', m', hsound, hg, hr⟩ :=
      (h.withString str).insertTable (show LType.string ≠ .nil by decide) hins
    have hty : c.arg.type = .string := by rw [harg]; rfl
    exact ⟨tb', m', hsound, .inserted (fun _ => LMap.typeAt_absent hn) _ _
      ⟨hty.symm, fun hne => absurd hty hne⟩ hg hr⟩
  | insertedPlain hty type hins =>
    obtain ⟨-, -, tb', m', hsound, hg, hr⟩ := h.insertTable c.arg.type_ne_nil hins
    exact ⟨tb', m', hsound, .inserted (fun hs => absurd hs hty) _ _ ⟨rfl, fun _ => rfl⟩ hg hr⟩

/-! ## §2. The representation invariant. -/

theorem Arg.Written.type_ne_nil {a : Arg} {tmp v : Value} (h : a.Written tmp v) :
    v.type ≠ .nil := by
  rw [h.type]
  exact a.type_ne_nil

/-- A key that is there keeps its type. -/
def LMap.KeepsTypes (m m' : LMap) : Prop :=
  ∀ key, m.typeAt key ≠ .nil → m'.typeAt key = m.typeAt key

theorem LMap.KeepsTypes.refl (m : LMap) : m.KeepsTypes m := fun _ _ => rfl

theorem LMap.KeepsTypes.trans {m'' : LMap} (h₁ : m.KeepsTypes m') (h₂ : m'.KeepsTypes m'') :
    m.KeepsTypes m'' := by
  intro key hk
  have hk' := h₁ key hk
  rw [← hk']
  exact h₂ key (by rw [hk']; exact hk)

theorem LMap.typeAt_congr (h : m'.view = m.view) (key : Key) : m'.typeAt key = m.typeAt key := by
  unfold LMap.typeAt
  rw [h]

/-- A call with a key that fits keeps the map a hash table in order. -/
theorem LMap.Effect.inv (h : m.Effect c m') (hm : m.Inv) (hk : c.key.Fits) :
    m'.Inv ∧ m.KeepsTypes m' := by
  cases h with
  | same hi hm' =>
    rw [hm']
    exact ⟨hm, .refl m⟩
  | inserted hi brk v hv hg hr =>
    have hinv := hm.inserted hk brk hv.type_ne_nil
    obtain ⟨hinv', hview⟩ := hinv.grown hg (fun hd => (hr hd).room)
    refine ⟨hinv', ?_⟩
    intro key hkey
    rw [LMap.typeAt_congr hview]
    unfold LMap.typeAt at hkey ⊢
    rw [hm.toSized.view_inserted hk, Function.update_apply]
    by_cases hkk : key = c.key
    · -- the key of the call: what is written keeps the type that was there
      subst hkk
      rw [if_pos rfl]
      cases hold : m.view c.key with
      | none =>
        rw [hold] at hkey
        exact absurd rfl hkey
      | some p => rfl
    · rw [if_neg hkk]

/-- The map of every table that calls with such keys reach. -/
theorem World.Sound.setAll_inv (h : w.Sound t tb m) (hm : m.Inv) {calls : List SetCall}
    (hk : ∀ c ∈ calls, c.key.Fits) {rs : List Int} (hx : w.setAll t calls = some (rs, w')) :
    ∃ tb' m', w'.Sound t tb' m' ∧ m'.Inv ∧ m.KeepsTypes m' := by
  induction calls generalizing w tb m rs with
  | nil =>
    cases hx
    exact ⟨tb, m, h, hm, .refl m⟩
  | cons c calls ih =>
    obtain ⟨r, w₁, rs', hset, hrest, -⟩ := (Run.run_cons_some _).mp hx
    obtain ⟨tb₁, m₁, h₁, heff⟩ := h.set_effect hset
    obtain ⟨hm₁, hkeep⟩ := heff.inv hm (hk c (by simp))
    obtain ⟨tb', m', h', hm', hkeep'⟩ := ih h₁ hm₁ (fun x hx => hk x (by simp [hx])) hrest
    exact ⟨tb', m', h', hm', hkeep.trans hkeep'⟩

/-- Every table reached by setter calls of any types has its nodes in the
buckets of their keys, one node a key, and whatever key was there after some
of the calls is there at the end with the same type. -/
theorem setAll_represents {calls later : List SetCall} {rs rs' : List Int} (hw : w.Tidy)
    (hnew : w.newTable = some (t, w₀)) (hk : ∀ c ∈ calls ++ later, c.key.Short)
    {w₁ w₂ : World} (hx : w₀.setAll t calls = some (rs, w₁))
    (hlater : w₁.setAll t later = some (rs', w₂)) :
    ∃ m₁ m₂, w₁.current t = some m₁ ∧ w₂.current t = some m₂ ∧ m₁.Inv ∧ m₂.Inv
      ∧ ∀ key, m₁.typeAt key ≠ .nil → m₂.typeAt key = m₁.typeAt key := by
  obtain ⟨tb₀, h₀⟩ := World.Sound.newTable hw hnew
  obtain ⟨tb₁, m₁, h₁, hm₁, -⟩ := h₀.setAll_inv LMap.new_inv
    (fun c hc => (hk c (by simp [hc])).fits) hx
  obtain ⟨tb₂, m₂, h₂, hm₂, hkeep⟩ := h₁.setAll_inv hm₁
    (fun c hc => (hk c (by simp [hc])).fits) hlater
  exact ⟨m₁, m₂, h₁.toOwns.current, h₂.toOwns.current, hm₁, hm₂, hkeep⟩

/-- A key keeps its first type through a call of another type. -/
theorem setAll_represents_refused :
    ∃ t w₀ w₁ w₂ m₁ m₂, World.empty.newTable = some (t, w₀)
      ∧ w₀.setAll t [⟨.str [97], .number 1, .blank⟩] = some ([0], w₁)
      ∧ w₁.setAll t [⟨.str [97], .string [120], .blank⟩, ⟨.num 3, .boolean 1, .blank⟩]
        = some ([1, 0], w₂)
      ∧ w₁.current t = some m₁ ∧ w₂.current t = some m₂ ∧ m₂.Inv
      ∧ (m₁.typeAt (.str [97]) ≠ .nil → m₂.typeAt (.str [97]) = m₁.typeAt (.str [97])) := by
  have hall : (World.empty.newTable.bind fun p =>
      (p.2.setAll p.1 [⟨.str [97], .number 1, .blank⟩]).bind fun q =>
        (q.2.setAll p.1 [⟨.str [97], .string [120], .blank⟩, ⟨.num 3, .boolean 1, .blank⟩]).map
          fun x => (q.1, x.1)) = some ([0], [1, 0]) := by decide
  obtain ⟨⟨t, w₀⟩, hnew, hall⟩ := Option.bind_eq_some_iff.mp hall
  obtain ⟨⟨rs₁, w₁⟩, h₁, hall⟩ := Option.bind_eq_some_iff.mp hall
  obtain ⟨⟨rs₂, w₂⟩, h₂, hall⟩ := Option.map_eq_some_iff.mp hall
  cases hall
  obtain ⟨m₁, m₂, hm₁, hm₂, -, hinv, hkeep⟩ :=
    setAll_represents World.empty_tidy hnew (by decide) h₁ h₂
  exact ⟨t, w₀, w₁, w₂, m₁, m₂, hnew, h₁, h₂, hm₁, hm₂, hinv, hkeep _⟩

/-! ## §3. The fill counter. -/

theorem LMap.length_link (hm : m.Sized) (key : Key) (n : Node) :
    (m.link key n).entries.length = m.entries.length + 1 :=
  (hm.entries_link key n).length_eq

theorem LMap.length_overwrite (hm : m.Sized) (key : Key) (w : Word) :
    (m.overwrite key w).entries.length = m.entries.length := by
  have h := congrArg List.length (hm.map_overwrite key w (g := Node.storedKey) (fun _ => rfl))
  rwa [List.length_map, List.length_map] at h

/-- An insert counts the node it links. -/
theorem LMap.index_inserted (hm : m.Sized) (brk : Addr) (key : Key) (v : Value) :
    (m.inserted brk key v).index - (m.inserted brk key v).entries.length
      = m.index - m.entries.length := by
  cases h : m.find key with
  | some n =>
    rw [LMap.inserted_found h, LMap.length_overwrite hm]
    rfl
  | none =>
    rw [LMap.inserted_absent h, LMap.length_link hm]
    show m.index + 1 - ((m.entries.length + 1 : Nat) : Int) = _
    omega

theorem LMap.depth_le (hm : m.Sized) (key : Key) : m.depth key ≤ m.entries.length := by
  obtain ⟨l, hl⟩ := hm.chain key
  have hsub : l.length ≤ m.entries.length :=
    (List.sublist_flatten_of_mem (List.mem_of_getElem? hl)).length_le
  unfold LMap.depth
  rw [hl]
  exact Nat.le_trans List.findIdx_le_length hsub

/-- A call keeps the distance of the counter from the number of nodes, except
that a doubled map starts to count at 0. -/
theorem LMap.Effect.index (h : m.Effect c m') (hm : m.Wf) :
    (¬ m.Expands c → m'.index - m'.entries.length = m.index - m.entries.length)
      ∧ (m.Expands c → m'.index < m'.entries.length) := by
  cases h with
  | same hi hm' =>
    rw [hm']
    exact ⟨fun _ => rfl, fun hx => absurd hx.1 hi⟩
  | inserted hi brk v hv hg hr =>
    have hwf := hm.inserted c.key brk hv.type_ne_nil
    have hidx := LMap.index_inserted hm.toSized brk c.key v
    constructor
    · intro hx
      have hd : ¬ maxHashDepth ≤ m.depth c.key := fun hd => hx ⟨hi, hd⟩
      rcases hg with ⟨-, rfl⟩ | ⟨hd', -⟩
      · exact hidx
      · exact absurd hd' hd
    · intro hx
      have hdepth := LMap.depth_le hm.toSized c.key
      have hmax := hx.2
      rcases hg with ⟨hd, -⟩ | ⟨hd, b, old, b', heq⟩
      · exact absurd hx.2 hd
      · obtain ⟨nm, b₁, heq₁, -, -, -, -, hzero, -, -, cs, hcs, hperm⟩ :=
          hwf.doubled_spec (hr hd).room (hr hd).keys b
        rw [heq] at heq₁
        cases heq₁
        -- at least the nodes that were walked are in the new map
        have hlen : m'.entries.length = (m.inserted brk c.key v).entries.length := by
          rw [hperm.length_eq, ← List.length_map (f := Node.content), hcs, List.length_map]
        have hge : m.entries.length ≤ (m.inserted brk c.key v).entries.length := by
          cases hf : m.find c.key with
          | some n => rw [LMap.inserted_found hf, LMap.length_overwrite hm.toSized]
          | none =>
            rw [LMap.inserted_absent hf, LMap.length_link hm.toSized]
            exact Nat.le_succ _
        unfold maxHashDepth at hmax
        omega

/-- The call makes the current map of the table grow. -/
def World.Expands (w : World) (t : Addr) (c : SetCall) : Prop :=
  match w.current t with
  | some m => m.Expands c
  | none => False

instance World.decidableExpands (w : World) (t : Addr) (c : SetCall) : Decidable (w.Expands t c) :=
  match h : w.current t with
  | some m => decidable_of_iff (m.Expands c) (by unfold World.Expands; rw [h])
  | none => isFalse (by unfold World.Expands; rw [h]; exact id)

theorem World.Owns.expands_iff (h : w.Owns t tb m) : w.Expands t c ↔ m.Expands c := by
  unfold World.Expands
  rw [h.current]

/-- No call of a run makes the map grow. -/
def World.NeverGrows (w : World) (t : Addr) (calls : List SetCall) : Prop :=
  Run.Along (fun w c => World.set w t c) (fun w c => ¬ w.Expands t c) w calls

/-- The counter never runs ahead, and stays exact while the map does not
grow. -/
theorem World.Sound.index_setAll (h : w.Sound t tb m) (hle : m.index ≤ m.entries.length)
    {calls : List SetCall} {rs : List Int} (hx : w.setAll t calls = some (rs, w')) :
    ∃ tb' m', w'.Sound t tb' m' ∧ m'.index ≤ m'.entries.length
      ∧ (m'.index = m'.entries.length ↔ m.index = m.entries.length ∧ w.NeverGrows t calls) := by
  induction calls generalizing w tb m rs with
  | nil =>
    cases hx
    exact ⟨tb, m, h, hle, ⟨fun he => ⟨he, trivial⟩, fun he => he.1⟩⟩
  | cons c calls ih =>
    obtain ⟨r, w₁, rs', hset, hrest, -⟩ := (Run.run_cons_some _).mp hx
    obtain ⟨tb₁, m₁, h₁, heff⟩ := h.set_effect hset
    obtain ⟨hsame, hless⟩ := heff.index h.wf
    -- one call keeps the bound, whether the map grows or not
    have hle₁ : m₁.index ≤ m₁.entries.length := by
      by_cases hgrow : m.Expands c
      · exact Int.le_of_lt (hless hgrow)
      · have := hsame hgrow
        omega
    obtain ⟨tb', m', h', hle', hiff⟩ := ih h₁ hle₁ hrest
    refine ⟨tb', m', h', hle', hiff.trans ?_⟩
    constructor
    · rintro ⟨he, hnever⟩
      -- once behind, the counter never catches up
      have hgrow : ¬ m.Expands c := by
        intro hgrow
        have := hless hgrow
        omega
      have := hsame hgrow
      refine ⟨by omega, fun hg => hgrow (h.toOwns.expands_iff.mp hg), ?_⟩
      intro o s' ho
      have ho : w.set t c = some (o, s') := ho
      rw [hset] at ho
      cases ho
      exact hnever
    · rintro ⟨he, hnever⟩
      have := hsame (fun hg => hnever.1 (h.toOwns.expands_iff.mpr hg))
      exact ⟨by omega, hnever.2 r w₁ hset⟩

/-- The counter of the current map is the number of its nodes exactly when no
call has made the map grow. -/
theorem index_exact_iff {calls : List SetCall} {rs : List Int} {w₁ : World} (hw : w.Tidy)
    (hnew : w.newTable = some (t, w₀)) (hx : w₀.setAll t calls = some (rs, w₁)) :
    ∃ m, w₁.current t = some m
      ∧ (m.index = m.entries.length ↔ w₀.NeverGrows t calls) := by
  obtain ⟨tb₀, h₀⟩ := World.Sound.newTable hw hnew
  obtain ⟨tb₁, m₁, h₁, -, hiff⟩ := h₀.index_setAll (show (0 : Int) ≤ 0 by decide) hx
  exact ⟨m₁, h₁.toOwns.current, hiff.trans ⟨fun he => he.2, fun he => ⟨rfl, he⟩⟩⟩

/-- Calls on the numeric keys `0, step, 2 * step, …`. -/
def strideCalls (step n : Nat) : List SetCall :=
  (List.range n).map (fun i => ⟨.num (UInt64.ofNat (i * step)), .number i, .blank⟩)

/-- Two keys of one chain. -/
theorem index_exact_iff_two :
    ∃ t w₀ w₁ m, World.empty.newTable = some (t, w₀)
      ∧ w₀.setAll t (strideCalls 29 2) = some ([0, 0], w₁) ∧ w₁.current t = some m
      ∧ (m.index = m.entries.length ↔ w₀.NeverGrows t (strideCalls 29 2)) := by
  have hall : (World.empty.newTable.bind fun p =>
      (p.2.setAll p.1 (strideCalls 29 2)).map Prod.fst) = some [0, 0] := by decide +kernel
  obtain ⟨⟨t, w₀⟩, hnew, hall⟩ := Option.bind_eq_some_iff.mp hall
  obtain ⟨⟨rs, w₁⟩, hrun, rfl⟩ := Option.map_eq_some_iff.mp hall
  obtain ⟨m, hm, hiff⟩ := index_exact_iff World.empty_tidy hnew hrun
  exact ⟨t, w₀, w₁, m, hnew, hrun, hm, hiff⟩

/-- Eight keys of one chain: the map grows and its counter is 0. -/
theorem index_lost :
    ∃ t w₀ w₁ rs m, World.empty.newTable = some (t, w₀)
      ∧ w₀.setAll t (strideCalls 29 8) = some (rs, w₁) ∧ w₁.current t = some m
      ∧ m.index = 0 ∧ m.entries.length = 8 ∧ m.index ≠ m.entries.length := by
  have hall : (World.empty.newTable.bind fun p =>
      (p.2.setAll p.1 (strideCalls 29 8)).bind fun q =>
        (q.2.current p.1).map fun m => (m.index, m.entries.length)) = some (0, 8) := by
    decide +kernel
  obtain ⟨⟨t, w₀⟩, hnew, hall⟩ := Option.bind_eq_some_iff.mp hall
  obtain ⟨⟨rs, w₁⟩, hrun, hall⟩ := Option.bind_eq_some_iff.mp hall
  obtain ⟨m, hm, hall⟩ := Option.map_eq_some_iff.mp hall
  simp only [Prod.mk.injEq] at hall
  refine ⟨t, w₀, w₁, rs, m, hnew, hrun, hm, hall.1, hall.2, ?_⟩
  rw [hall.1, hall.2]
  decide

end LightTable
