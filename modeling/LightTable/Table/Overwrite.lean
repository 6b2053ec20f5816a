/-
  LightTable.Table.Overwrite
  ──────────────────────────
  A setter call on a key that is there, with the type it holds.

  `set_string` swaps the slot of the string.  The other setters go through
  `_insert_value`, whose depth counter runs on the search too: a key with
  `MAX_HASH_DEPTH` nodes before it makes the map grow although nothing is
  added.  `overwrite_iff` says exactly when only the value changes.
-/
import LightTable.Table.Effects
import LightTable.Table.FailedSet

namespace LightTable

open ChainedHash

variable {w w₀ w' : World} {t : Addr} {tb : Table} {m m' : LMap} {c : SetCall}

/-! ## §1. Lstrings have slots of their own. -/

/-- No two lstrings share a slot. -/
def World.Apart (w : World) : Prop :=
  ∀ a b slot, w.lstrings a = some ⟨slot⟩ → w.lstrings b = some ⟨slot⟩ → a = b

theorem World.empty_apart : World.empty.Apart :=
  fun a b slot ha => absurd ha (by simp [World.empty])

theorem World.Apart.congr (h : w.Apart) (hls : w'.lstrings = w.lstrings) : w'.Apart := by
  intro a b slot
  rw [hls]
  exact h a b slot

/-- An lstring that gets a new slot shares it with no other. -/
theorem World.Apart.update (h : w.Apart) (ht : w.Tidy) {p slot : Addr} (hslot : w.brk ≤ slot)
    (hp : w'.lstrings p = some ⟨slot⟩) (hother : ∀ a, a ≠ p → w'.lstrings a = w.lstrings a) :
    w'.Apart := by
  -- nobody else holds the new slot
  have hnew : ∀ a, a ≠ p → w'.lstrings a ≠ some ⟨slot⟩ := by
    intro a hap ha
    rw [hother a hap] at ha
    exact absurd (ht a slot ha) (Nat.not_lt.mpr hslot)
  intro a b s ha hb
  by_cases hap : a = p
  · by_cases hbp : b = p
    · rw [hap, hbp]
    · rw [hap, hp] at ha
      cases ha
      exact absurd hb (hnew b hbp)
  · by_cases hbp : b = p
    · rw [hbp, hp] at hb
      cases hb
      exact absurd ha (hnew a hap)
    · rw [hother a hap] at ha
      rw [hother b hbp] at hb
      exact h a b s ha hb

theorem World.Apart.newTable (h : w.Apart) (hnew : w.newTable = some (t, w₀)) : w₀.Apart := by
  obtain ⟨-, -, hls, -⟩ := World.of_newTable hnew
  exact h.congr hls

theorem World.Apart.withString (h : w.Apart) (ht : w.Tidy) (str : Bytes) :
    (w.withString str).Apart :=
  h.update ht (Nat.le_succ w.brk) (Function.update_self ..) (fun _ ha => Function.update_of_ne ha ..)

theorem World.Apart.set (ha : w.Apart) (h : w.Sound t tb m) {r : Int}
    (hx : w.set t c = some (r, w')) : w'.Apart := by
  cases h.set_case hx with
  | refused hc n hn hty hw =>
    rw [hw]
    exact ha
  | swapped str harg n hn hty hup =>
    obtain ⟨-, hp, -, hother, -⟩ := h.updateString hup
    exact ha.update h.tidy (Nat.le_refl _) hp hother
  | insertedString str harg hn type hins =>
    obtain ⟨-, hframe, -⟩ :=
      (h.withString str).insertTable (show LType.string ≠ .nil by decide) hins
    exact (ha.withString h.tidy str).congr hframe.lstrings
  | insertedPlain hty type hins =>
    obtain ⟨-, hframe, -⟩ := h.insertTable c.arg.type_ne_nil hins
    exact ha.congr hframe.lstrings

theorem World.Apart.setAll (ha : w.Apart) (h : w.Sound t tb m) {calls : List SetCall}
    {rs : List Int} (hx : w.setAll t calls = some (rs, w')) : w'.Apart := by
  refine (Run.run_inv (fun w c => World.set w t c)
    (I := fun w => w.Apart ∧ ∃ tb m, World.Sound w t tb m) ?_ ⟨ha, tb, m, h⟩ hx).1
  intro w c r w' ⟨ha, tb, m, hs⟩ hset
  exact ⟨ha.set hs hset, hs.set hset⟩

/-! ## §2. Calls that change a value in its place. -/

/-- The keys the nodes of a map store. -/
def LMap.keys (m : LMap) : List Key := m.entries.filterMap Node.storedKey

/-- The call returns and leaves the bucket count, the number of nodes, the set
of keys and what every other key reads as. -/
def World.ChangesOnly (w : World) (t : Addr) (m : LMap) (c : SetCall) : Prop :=
  ∃ r w' m', w.set t c = some (r, w') ∧ w'.current t = some m' ∧ m'.size = m.size
    ∧ m'.entries.length = m.entries.length ∧ (∀ key, key ∈ m'.keys ↔ key ∈ m.keys)
    ∧ ∀ key, key ≠ c.key → w'.readBack t key = w.readBack t key

/-- Fewer than `MAX_HASH_DEPTH` nodes stand before the key; for `set_string`,
the lstring of its node `n` is there, and no other string of the table has
come to name the same lstring and reads differently from what is written. -/
def World.InPlace (w : World) (m : LMap) (c : SetCall) (n : Node) : Prop :=
  match c.arg with
  | .string str => w.Live n.v.v ∧ ∀ key n', key ≠ c.key → m.find key = some n' →
      n'.v.type = .string → n'.v.v = n.v.v → w.showsNode (some n') = .string (some (str ++ [0]))
  | _ => m.depth c.key < maxHashDepth

theorem World.inPlace_string {str : Bytes} (harg : c.arg = .string str) (n : Node) :
    w.InPlace m c n ↔ w.Live n.v.v ∧ ∀ key n', key ≠ c.key → m.find key = some n' →
      n'.v.type = .string → n'.v.v = n.v.v →
        w.showsNode (some n') = .string (some (str ++ [0])) := by
  unfold World.InPlace
  rw [harg]

theorem World.inPlace_plain (hc : c.arg.type ≠ .string) (n : Node) :
    w.InPlace m c n ↔ m.depth c.key < maxHashDepth := by
  unfold World.InPlace
  cases harg : c.arg with
  | string str => exact absurd (by rw [harg]; rfl) hc
  | number x => rfl
  | boolean b => rfl
  | ud u => rfl

theorem LMap.keys_overwrite (hm : m.Sized) (key : Key) (w : Word) :
    (m.overwrite key w).keys = m.keys := by
  have h := hm.map_overwrite key w (g := Node.storedKey) (fun _ => rfl)
  have heq : ∀ l : List Node, l.filterMap Node.storedKey
      = (l.map Node.storedKey).filterMap id := by
    intro l
    rw [List.filterMap_map]
    rfl
  unfold LMap.keys
  rw [heq, h, ← heq]

/-! ## §3. The setters that insert. -/

theorem World.Sound.plain_changesOnly (h : w.Sound t tb m) (hc : c.arg.type ≠ .string) {n : Node}
    (hn : m.find c.key = some n) :
    w.ChangesOnly t m c ↔ m.depth c.key < maxHashDepth := by
  set v : Value := { c.tmp with type := c.arg.type, v := c.arg.word c.tmp } with hv
  have hvt : v.type ≠ .nil := c.arg.type_ne_nil
  constructor
  · rintro ⟨r, w', m', hset, hcur, hsize, -⟩
    by_contra hd
    have hd : maxHashDepth ≤ m.depth c.key := Nat.not_lt.mp hd
    rw [World.set_of_plain hc] at hset
    obtain ⟨⟨type, w₁⟩, hins, hset⟩ := Option.bind_eq_some_iff.mp hset
    cases hset
    -- the map has grown to twice its size
    have hready := h.toOwns.of_insertTable h.wf hvt hins
    obtain ⟨w₂, tb₂, m₂, heq, howns, -, hgrown, -⟩ :=
      h.toOwns.insertTable h.wf c.key hvt hready
    rw [hins] at heq
    cases heq
    rw [howns.current] at hcur
    cases hcur
    unfold grownSize at hgrown
    rw [if_pos hd] at hgrown
    have hpos := h.wf.pos
    omega
  · intro hd
    have hnd : ¬ maxHashDepth ≤ m.depth c.key := Nat.not_le.mpr hd
    obtain ⟨w', tb', m', heq, howns, hgrown, -, hframe, -⟩ :=
      h.toOwns.insertTable h.wf c.key hvt (fun hd' => absurd hd' hnd)
    have hm' : m' = m.overwrite c.key v.v := by
      rcases hgrown with ⟨-, rfl⟩ | ⟨hd', -⟩
      · exact LMap.inserted_found hn _ _
      · exact absurd hd' hnd
    subst hm'
    have hs' : w'.Sound t tb' (m.overwrite c.key v.v) :=
      ⟨howns, h.wf.overwrite c.key v.v, h.tidy.frame hframe⟩
    have hset : w.set t c
        = some (if m.typeAt c.key ≠ c.arg.type ∧ m.typeAt c.key ≠ .nil then 1 else 0, w') := by
      rw [World.set_of_plain hc]
      unfold World.setPlain
      rw [heq]
      rfl
    refine ⟨_, w', _, hset, howns.current, rfl, LMap.length_overwrite h.wf.toSized c.key v.v, ?_, ?_⟩
    · intro key
      rw [LMap.keys_overwrite h.wf.toSized]
    · intro key hkey
      rw [hs'.readBack, h.readBack, h.wf.toSized.find_overwrite, if_neg hkey,
        World.showsNode_frame hframe]

/-! ## §4. `set_string`. -/

/-- What a node shows after the string of the lstring `p` was replaced. -/
theorem World.shows_updated (ha : w.Apart) (ht : w.Tidy) {p : Addr}
    (hp' : w'.lstrings p = some ⟨w.brk⟩) {str : Bytes}
    (hnew : w'.slots w.brk = some (LightTable.newString str))
    (hls : ∀ a, a ≠ p → w'.lstrings a = w.lstrings a)
    (hsl : ∀ s, s ≠ w.brk → w.lstrings p ≠ some ⟨s⟩ → w'.slots s = w.slots s) (n : Node) :
    w'.showsNode (some n) = if n.v.type = .string ∧ n.v.v = p then .string (some (str ++ [0]))
      else w.showsNode (some n) := by
  show w'.shows n.v.type n.v.v = if _ then _ else w.shows n.v.type n.v.v
  unfold World.shows
  cases hty : n.v.type with
  | string =>
    by_cases hv : n.v.v = p
    · rw [if_pos ⟨rfl, hv⟩, hv, hp', Option.bind_some, hnew]
      rfl
    · rw [if_neg (fun h => hv h.2), hls _ hv]
      cases hl : w.lstrings n.v.v with
      | none => rfl
      | some ls =>
        -- its slot is neither the old one of `p` nor the new one
        have hlt := ht n.v.v ls.slot hl
        have hne : w.lstrings p ≠ some ⟨ls.slot⟩ := fun h => hv (ha n.v.v p ls.slot hl h)
        rw [Option.bind_some, Option.bind_some, hsl _ (Nat.ne_of_lt hlt) hne]
  | nil => rfl
  | number => rfl
  | boolean => rfl
  | ud => rfl

theorem World.Sound.string_changesOnly (h : w.Sound t tb m) (ha : w.Apart) {str : Bytes}
    (harg : c.arg = .string str) {n : Node} (hn : m.find c.key = some n)
    (hty : n.v.type = .string) :
    w.ChangesOnly t m c ↔ w.Live n.v.v ∧ ∀ key n', key ≠ c.key → m.find key = some n' →
      n'.v.type = .string → n'.v.v = n.v.v →
        w.showsNode (some n') = .string (some (str ++ [0])) := by
  -- what the call does when the lstring is there
  have hdoes : w.Live n.v.v → ∃ w', w.set t c = some (0, w') ∧ w'.Sound t tb m
      ∧ ∀ x, w'.showsNode (some x)
        = if x.v.type = .string ∧ x.v.v = n.v.v then .string (some (str ++ [0]))
          else w.showsNode (some x) := by
    intro hlive
    obtain ⟨w', heq, htables, hbrk, htidy, hp, hnew, hother, hslots, -⟩ :=
      h.tidy.updateString hlive str
    have howns := h.toOwns.congr htables (by rw [hbrk]; exact Nat.le_succ _)
    refine ⟨w', ?_, ⟨howns, h.wf, htidy⟩, World.shows_updated ha h.tidy hp hnew hother hslots⟩
    rw [h.toOwns.set_swaps h.wf harg hn hty, heq]
    rfl
  constructor
  · rintro ⟨r, w', m', hset, hcur, -, -, -, hread⟩
    have hlive : w.Live n.v.v := by
      cases h.set_case hset with
      | refused hc x hx hne hw =>
        rw [hn] at hx
        cases hx
        exact absurd hty hne
      | swapped str' harg' x hx hty' hup =>
        rw [hn] at hx
        cases hx
        exact h.tidy.of_updateString hup
      | insertedString str' harg' hx type hins =>
        rw [hn] at hx
        exact absurd hx (by simp)
      | insertedPlain hne type hins => exact absurd (by rw [harg]; rfl) hne
    obtain ⟨w₁, hset₁, hs₁, hshows⟩ := hdoes hlive
    rw [hset] at hset₁
    cases hset₁
    refine ⟨hlive, ?_⟩
    intro key n' hkey hn' hty' hv'
    have hk := hread key hkey
    rw [hs₁.readBack, h.readBack, hn', hshows n', if_pos ⟨hty', hv'⟩] at hk
    exact (Option.some.inj hk).symm
  · rintro ⟨hlive, hothers⟩
    obtain ⟨w₁, hset, hs₁, hshows⟩ := hdoes hlive
    refine ⟨0, w₁, m, hset, hs₁.toOwns.current, rfl, rfl, fun _ => Iff.rfl, ?_⟩
    intro key hkey
    rw [hs₁.readBack, h.readBack]
    cases hn' : m.find key with
    | none => rfl
    | some n' =>
      rw [hshows n']
      split
      next hsame => rw [hothers key n' hkey hn' hsame.1 hsame.2]
      next => rfl

/-! ## §5. Every reachable table. -/

/-- On a key that is there, a call of its type changes only its value exactly
when it is made in place. -/
theorem overwrite_iff {calls : List SetCall} {rs : List Int} {w₁ : World} (hw : w.Tidy)
    (ha : w.Apart) (hnew : w.newTable = some (t, w₀)) (hx : w₀.setAll t calls = some (rs, w₁))
    (hm : w₁.current t = some m) {n : Node} (hn : m.find c.key = some n)
    (hty : n.v.type = c.arg.type) : w₁.ChangesOnly t m c ↔ w₁.InPlace m c n := by
  obtain ⟨tb₀, h₀⟩ := World.Sound.newTable hw hnew
  obtain ⟨tb₁, m₁, h₁⟩ := h₀.setAll hx
  rw [h₁.toOwns.current] at hm
  cases hm
  by_cases hc : c.arg.type = .string
  · obtain ⟨str, harg⟩ := Arg.eq_string hc
    rw [World.inPlace_string harg]
    exact h₁.string_changesOnly ((ha.newTable hnew).setAll h₀ hx) harg hn (hty.trans hc)
  · rw [World.inPlace_plain hc]
    exact h₁.plain_changesOnly hc hn

/-- The theorem at a number with nothing before it. -/
theorem overwrite_iff_first :
    ∃ t w₀ w₁ m n, World.empty.newTable = some (t, w₀)
      ∧ w₀.setAll t [⟨.num 1, .number 5, .blank⟩] = some ([0], w₁) ∧ w₁.current t = some m
      ∧ m.find (.num 1) = some n
      ∧ (w₁.ChangesOnly t m ⟨.num 1, .number 6, .blank⟩
        ↔ w₁.InPlace m ⟨.num 1, .number 6, .blank⟩ n) := by
  have hall : (World.empty.newTable.bind fun p =>
      (p.2.setAll p.1 [⟨.num 1, .number 5, .blank⟩]).bind fun q =>
        (q.2.current p.1).bind fun m =>
          (m.find (.num 1)).map fun n => (q.1, n.v.type)) = some ([0], .number) := by decide
  obtain ⟨⟨t, w₀⟩, hnew, hall⟩ := Option.bind_eq_some_iff.mp hall
  obtain ⟨⟨rs, w₁⟩, hrun, hall⟩ := Option.bind_eq_some_iff.mp hall
  obtain ⟨m, hm, hall⟩ := Option.bind_eq_some_iff.mp hall
  obtain ⟨n, hn, hall⟩ := Option.map_eq_some_iff.mp hall
  simp only [Prod.mk.injEq] at hall
  obtain ⟨rfl, hty⟩ := hall
  exact ⟨t, w₀, w₁, m, n, hnew, hrun, hm, hn,
    overwrite_iff (c := ⟨.num 1, .number 6, .blank⟩) World.empty_tidy World.empty_apart hnew hrun hm
      hn hty⟩

/-- Eight keys of one chain before and after the map grew: writing the first
of them again, now the last of its chain, takes the map from 58 to 116
buckets. -/
theorem overwrite_grows :
    ∃ t w₀ w₁ w₂ rs r m m' n, World.empty.newTable = some (t, w₀)
      ∧ w₀.setAll t (strideCalls 58 8) = some (rs, w₁) ∧ w₁.current t = some m
      ∧ m.find (.num 0) = some n ∧ n.v.type = .number ∧ m.size = 58
      ∧ w₁.set t ⟨.num 0, .number 5, .blank⟩ = some (r, w₂) ∧ w₂.current t = some m'
      ∧ m'.size = 116 ∧ ¬ w₁.ChangesOnly t m ⟨.num 0, .number 5, .blank⟩ := by
  have hall : (World.empty.newTable.bind fun p =>
      (p.2.setAll p.1 (strideCalls 58 8)).bind fun q =>
        (q.2.current p.1).bind fun m => (m.find (.num 0)).bind fun n =>
          (q.2.set p.1 ⟨.num 0, .number 5, .blank⟩).bind fun x =>
            (x.2.current p.1).map fun m' => (n.v.type, m.size, m'.size))
      = some (.number, 58, 116) := by decide +kernel
  obtain ⟨⟨t, w₀⟩, hnew, hall⟩ := Option.bind_eq_some_iff.mp hall
  obtain ⟨⟨rs, w₁⟩, hrun, hall⟩ := Option.bind_eq_some_iff.mp hall
  obtain ⟨m, hm, hall⟩ := Option.bind_eq_some_iff.mp hall
  obtain ⟨n, hn, hall⟩ := Option.bind_eq_some_iff.mp hall
  obtain ⟨⟨r, w₂⟩, hset, hall⟩ := Option.bind_eq_some_iff.mp hall
  obtain ⟨m', hm', hall⟩ := Option.map_eq_some_iff.mp hall
  simp only [Prod.mk.injEq] at hall
  obtain ⟨hty, hsize, hsize'⟩ := hall
  refine ⟨t, w₀, w₁, w₂, rs, r, m, m', n, hnew, hrun, hm, hn, hty, hsize, hset, hm', hsize', ?_⟩
  rintro ⟨r', w', x, hset', hx, hxs, -⟩
  rw [hset] at hset'
  cases hset'
  rw [hm'] at hx
  cases hx
  rw [hsize, hsize'] at hxs
  exact absurd hxs (by decide)

end LightTable
