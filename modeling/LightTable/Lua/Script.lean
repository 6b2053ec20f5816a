/-
  LightTable.Lua.Script
  ─────────────────────
  The converter that `test.lua` has beside `lighttable.convert`.

  `convert_table_to_lt` is written in Lua: it goes through the table with the
  `pairs` of Lua and assigns every entry to a light table, a nested table after
  a call of its own.  An assignment raises an error when a setter refuses it;
  `do_convert` ignores the return code of `set_ud`.  That is the only
  difference, so the two give the same table in the same memory exactly when
  no nested table meets a key of another type (`convertTableToLt_iff`).
-/
import LightTable.Lua.RoundTrip

namespace LightTable

open Fuel Relation

/-! ## §1. The script. -/

/-- The value that is assigned: a nested table is converted first. -/
def scriptValue (sub : Addr → World → Option (Outcome Addr × World)) (v : LuaValue) (w : World) :
    Option (Outcome LuaValue × World) :=
  match v with
  | .table id => do
      match ← sub id w with
      | (.error e, w) => return (.error e, w)
      | (.ok s, w) => return (.ok (.lightuserdata s), w)
  | v => some (.ok v, w)

/-- The loop of `convert_table_to_lt`; `sub` converts a nested table. -/
def scriptEntries (tmp : Value) (sub : Addr → World → Option (Outcome Addr × World)) (ret : Addr) :
    List (LuaValue × LuaValue) → World → Option (Outcome Unit × World)
  | [], w => some (.ok (), w)
  | (k, v) :: rest, w => do
      match ← scriptValue sub v w with
      | (.error e, w) => return (.error e, w)
      | (.ok v, w) =>
          match ← w.luaSet ret k v tmp with
          | (.error e, w) => return (.error e, w)
          | (.ok (), w) => scriptEntries tmp sub ret rest w

/-- `convert_table_to_lt`, for tables nested at most `fuel` deep. -/
def convertTableToLt (tmp : Value) (heap : LuaHeap) :
    Nat → Addr → World → Option (Outcome Addr × World)
  | 0, _, _ => none
  | fuel + 1, tbl, w => do
      let entries ← heap tbl
      let (ret, w) ← w.newTable
      match ← scriptEntries tmp (convertTableToLt tmp heap fuel) ret entries w with
      | (.error e, w) => return (.error e, w)
      | (.ok (), w) => return (.ok ret, w)

/-- A nested table meets no key of another type. -/
def World.TableFits (tmp : Value) (_ : Nat) (w : World) (t : Addr) (e : LuaValue × LuaValue) : Prop :=
  ∀ id ∈ nestedTable e, ∀ key ∈ okKey e.1, ¬ w.Mismatch t ⟨key, .ud id, tmp⟩

variable {heap : LuaHeap} {t ret id : Addr} {k v : LuaValue} {key : Key} {es rest : List (LuaValue × LuaValue)}
  {w w' : World} {tmp : Value} {sub : Addr → World → Option (Outcome Addr × World)}
  {tb : Table} {m : LMap} {d : Nat}

/-! ## §2. One round. -/

theorem scriptEntries_table :
    scriptEntries tmp sub ret ((k, .table id) :: rest) w
      = (sub id w).bind fun x => match x.1 with
          | .error e => some (.error e, x.2)
          | .ok s => (x.2.luaSet ret k (.lightuserdata s) tmp).bind fun y => match y.1 with
              | .error e => some (.error e, y.2)
              | .ok _ => scriptEntries tmp sub ret rest y.2 := by
  rw [scriptEntries, scriptValue]
  cases sub id w with
  | none => rfl
  | some x =>
    obtain ⟨o, w₁⟩ := x
    cases o with
    | error e => rfl
    | ok s =>
      simp only [Option.bind_eq_bind, Option.bind_some, Option.pure_def]
      refine congrArg _ (funext fun y => ?_)
      obtain ⟨o, w₂⟩ := y
      cases o <;> rfl

theorem scriptEntries_scalar (hv : ∀ id, v ≠ .table id) :
    scriptEntries tmp sub ret ((k, v) :: rest) w
      = (w.luaSet ret k v tmp).bind fun y => match y.1 with
          | .error e => some (.error e, y.2)
          | .ok _ => scriptEntries tmp sub ret rest y.2 := by
  have hval : scriptValue sub v w = some (.ok v, w) := by
    cases v with
    | table id => exact absurd rfl (hv id)
    | _ => rfl
  rw [scriptEntries, hval]
  simp only [Option.bind_eq_bind, Option.bind_some]
  refine congrArg _ (funext fun y => ?_)
  obtain ⟨o, w₁⟩ := y
  cases o <;> rfl

/-- An assignment succeeds when the key is taken and the setter gives 0. -/
theorem World.luaSet_ok_iff {a : Arg} (hk : getKey k = some (.ok key)) (hv : v.arg = some a) :
    w.luaSet t k v tmp = some (.ok (), w') ↔ w.set t ⟨key, a, tmp⟩ = some (0, w') := by
  rw [World.luaSet_key hk, World.setValue_arg hv]
  constructor
  · intro h
    obtain ⟨⟨r, w₁⟩, hset, h⟩ := Option.map_eq_some_iff.mp h
    simp only [Prod.mk.injEq] at h
    obtain ⟨hr, rfl⟩ := h
    by_cases h0 : r = 0
    · rw [hset, h0]
    · rw [if_pos h0] at hr
      cases hr
  · intro h
    rw [h]
    rfl

theorem World.tableFits_scalar (hv : ∀ id, v ≠ .table id) : w.TableFits tmp d t (k, v) := by
  intro id hid
  rw [nestedTable_scalar hv] at hid
  cases hid

theorem World.tableFits_table (hk : getKey k = some (.ok key)) :
    w.TableFits tmp d t (k, .table id) ↔ ¬ w.Mismatch t ⟨key, .ud id, tmp⟩ := by
  have hok : okKey k = some key := by
    unfold okKey
    rw [hk]
  unfold World.TableFits
  rw [nestedTable_table hk, hok]
  simp

/-! ## §3. The two loops. -/

variable {subS subL : Addr → World → Option (Outcome Addr × World)} {subAlong : Addr → World → Prop}

/-- The assignment of a nested table is `set_ud` with the return code 0. -/
theorem World.Sound.luaSet_table {w₁ w₂ : World} {s : Addr} (h : w.Sound t tb m)
    (hl : World.Leaves w.brk w w₁) (hw₁ : w₁.Tidy) (ht : t < w.brk) (hk : getKey k = some (.ok key)) :
    w₁.luaSet t k (.lightuserdata s) tmp = some (.ok (), w₂)
      ↔ ∃ r, w₁.setUd t key tmp s = some (r, w₂) ∧ w.TableFits tmp d t (k, .table id) := by
  have hs₁ := h.left hl hw₁ ht (Nat.ne_of_lt ht)
  have hmis : w₁.Mismatch t ⟨key, .ud s, tmp⟩ ↔ w.Mismatch t ⟨key, .ud id, tmp⟩ := by
    unfold World.Mismatch
    rw [hs₁.typeOf, h.typeOf]
    rfl
  rw [World.luaSet_ok_iff hk (a := .ud s) rfl, World.tableFits_table hk, ← hmis]
  constructor
  · intro hset
    exact ⟨0, hset, fun hne => (hs₁.set_nonzero_iff hset).mpr hne rfl⟩
  · rintro ⟨r, hset, hfits⟩
    have hset : w₁.set t ⟨key, .ud s, tmp⟩ = some (r, w₂) := hset
    by_cases hr : r = 0
    · rw [hset, hr]
    · exact absurd ((hs₁.set_nonzero_iff hset).mp hr) hfits

/-- The loops do the same, when the nested calls do. -/
theorem scriptEntries_iff
    (hsub : ∀ id w s w', w.Tidy →
      (subS id w = some (.ok s, w') ↔ subL id w = some (.ok s, w') ∧ subAlong id w))
    (hleaves : ∀ id w o w', w.Tidy → subL id w = some (o, w') → w'.Tidy ∧ World.Leaves w.brk w w')
    (rest : List (LuaValue × LuaValue)) :
    ∀ (w : World) (tb : Table) (m : LMap) (w' : World), w.Sound t tb m → t < w.brk →
      (scriptEntries tmp subS t rest w = some (.ok (), w')
        ↔ convertEntries tmp subL t rest w = some (.ok (), w')
          ∧ EntriesAlong tmp (World.TableFits tmp) subL subAlong d t rest w) := by
  induction rest with
  | nil =>
    intro w tb m w' _ _
    exact ⟨fun h => ⟨h, trivial⟩, And.left⟩
  | cons e rest ih =>
    intro w tb m w' h ht
    obtain ⟨k, v⟩ := e
    -- behind a round the table is as sound as before
    have hnext : ∀ {w₁ w₂ : World} {key : Key} {a : Arg} {r : Int} {tb₁ : Table} {m₁ : LMap},
        w₁.Sound t tb₁ m₁ → w.brk ≤ w₁.brk → w₁.set t ⟨key, a, tmp⟩ = some (r, w₂) →
        (scriptEntries tmp subS t rest w₂ = some (.ok (), w')
          ↔ convertEntries tmp subL t rest w₂ = some (.ok (), w')
            ∧ EntriesAlong tmp (World.TableFits tmp) subL subAlong d t rest w₂) := by
      intro w₁ w₂ key a r tb₁ m₁ hs₁ hbrk hset
      obtain ⟨tb₂, m₂, hs₂⟩ := hs₁.set hset
      exact ih w₂ tb₂ m₂ w' hs₂
        (Nat.lt_of_lt_of_le ht (Nat.le_trans hbrk (hs₁.set_leaves hset).brk))
    by_cases hv : ∃ id, v = .table id
    · obtain ⟨id, rfl⟩ := hv
      rw [scriptEntries_table]
      constructor
      · intro hx
        obtain ⟨⟨o, w₁⟩, hcall, hx⟩ := Option.bind_eq_some_iff.mp hx
        cases o with
        | error err => cases hx
        | ok s =>
          obtain ⟨⟨o, w₂⟩, hset, hx⟩ := Option.bind_eq_some_iff.mp hx
          cases o with
          | error err => cases hx
          | ok u =>
            obtain ⟨hcallL, halong⟩ := (hsub id w s w₁ h.tidy).mp hcall
            obtain ⟨htidy, hl⟩ := hleaves id w _ w₁ h.tidy hcallL
            obtain ⟨key, -, hk, -, -⟩ := World.of_luaSet hset
            obtain ⟨r, hud, hfits⟩ := (h.luaSet_table hl htidy ht hk).mp hset
            obtain ⟨hrest, hrestAlong⟩ :=
              (hnext (a := .ud s) (h.left hl htidy ht (Nat.ne_of_lt ht)) hl.brk hud).mp hx
            rw [convertEntries_table hk, hcallL, entriesAlong_table hk hcallL hud]
            refine ⟨?_, hfits, halong, hrestAlong⟩
            simp only [Option.bind_some, hud]
            exact hrest
      · rintro ⟨hx, halong⟩
        cases hk : getKey k with
        | none =>
          rw [convertEntries_noKey hk] at hx
          cases hx
        | some gk =>
          cases gk with
          | error err =>
            rw [convertEntries_badKey hk] at hx
            cases hx
          | ok key =>
            rw [convertEntries_table hk] at hx
            obtain ⟨⟨o, w₁⟩, hcall, hx⟩ := Option.bind_eq_some_iff.mp hx
            cases o with
            | error err => cases hx
            | ok s =>
              obtain ⟨⟨r, w₂⟩, hud, hx⟩ := Option.bind_eq_some_iff.mp hx
              obtain ⟨htidy, hl⟩ := hleaves id w _ w₁ h.tidy hcall
              obtain ⟨hfits, hsubAlong, hrestAlong⟩ := (entriesAlong_table hk hcall hud).mp halong
              have hcallS := (hsub id w s w₁ h.tidy).mpr ⟨hcall, hsubAlong⟩
              have hset := (h.luaSet_table hl htidy ht hk).mpr ⟨r, hud, hfits⟩
              have hrest :=
                (hnext (a := .ud s) (h.left hl htidy ht (Nat.ne_of_lt ht)) hl.brk hud).mpr
                  ⟨hx, hrestAlong⟩
              simp only [hcallS, Option.bind_some, hset]
              exact hrest
    · have hv : ∀ id, v ≠ .table id := fun id hid => hv ⟨id, hid⟩
      rw [scriptEntries_scalar hv]
      constructor
      · intro hx
        obtain ⟨⟨o, w₁⟩, hset, hx⟩ := Option.bind_eq_some_iff.mp hx
        cases o with
        | error err => cases hx
        | ok u =>
          obtain ⟨key, a, hk, ha, hcall⟩ := World.of_luaSet hset
          have hval : w.setValue t key v tmp = some (.ok (), w₁) := by
            rw [← World.luaSet_key hk]
            exact hset
          obtain ⟨hrest, hrestAlong⟩ := (hnext h (Nat.le_refl _) hcall).mp hx
          rw [convertEntries_scalar hk hv, hval, entriesAlong_scalar hk hv hval]
          exact ⟨hrest, World.tableFits_scalar hv, hrestAlong⟩
      · rintro ⟨hx, halong⟩
        cases hk : getKey k with
        | none =>
          rw [convertEntries_noKey hk] at hx
          cases hx
        | some gk =>
          cases gk with
          | error err =>
            rw [convertEntries_badKey hk] at hx
            cases hx
          | ok key =>
            rw [convertEntries_scalar hk hv] at hx
            obtain ⟨⟨o, w₁⟩, hval, hx⟩ := Option.bind_eq_some_iff.mp hx
            cases o with
            | error err => cases hx
            | ok u =>
              have hset : w.luaSet t k v tmp = some (.ok (), w₁) := by
                rw [World.luaSet_key hk]
                exact hval
              obtain ⟨key', a, hk', ha, hcall⟩ := World.of_luaSet hset
              have hrestAlong := ((entriesAlong_scalar hk hv hval).mp halong).2
              have hrest := (hnext h (Nat.le_refl _) hcall).mpr ⟨hx, hrestAlong⟩
              rw [hset]
              exact hrest

/-! ## §4. The two converters. -/

/-- The calls do the same at every depth. -/
theorem convertTableToLt_ok (fuel : Nat) :
    ∀ (d : Nat) (id : Addr) (w : World) (root : Addr) (w' : World), w.Tidy →
      (convertTableToLt tmp heap fuel id w = some (.ok root, w')
        ↔ doConvert tmp heap fuel id w = some (.ok root, w')
          ∧ ConvertAlong tmp heap (World.TableFits tmp) fuel d id w) := by
  induction fuel with
  | zero =>
    intro d id w root w' _
    simp [convertTableToLt, doConvert]
  | succ fuel ih =>
    intro d id w root w' hw
    cases hes : heap id with
    | none =>
      rw [doConvert_none hes]
      simp [convertTableToLt, hes]
    | some es =>
      obtain ⟨w₀, -, hnew, -⟩ := w.newTable_spec
      obtain ⟨-, -, hlt, tb, hs₀⟩ := World.newTable_leaves hw hnew
      have hleaves : ∀ id w o w', w.Tidy → doConvert tmp heap fuel id w = some (o, w') →
          w'.Tidy ∧ World.Leaves w.brk w w' := by
        intro id w o w' hw hx
        obtain ⟨⟨tb, m, hs⟩, hl, -⟩ := doConvert_leaves fuel id w o w' hw hx
        exact ⟨hs.tidy, hl⟩
      have halong : ConvertAlong tmp heap (World.TableFits tmp) (fuel + 1) d id w
          ↔ EntriesAlong tmp (World.TableFits tmp) (doConvert tmp heap fuel)
            (ConvertAlong tmp heap (World.TableFits tmp) fuel (d + 1)) d w.brk es w₀ := by
        rw [ConvertAlong, hes, hnew]
        simp
      have hloop : ∀ w', scriptEntries tmp (convertTableToLt tmp heap fuel) w.brk es w₀
            = some (.ok (), w')
          ↔ convertEntries tmp (doConvert tmp heap fuel) w.brk es w₀ = some (.ok (), w')
            ∧ EntriesAlong tmp (World.TableFits tmp) (doConvert tmp heap fuel)
              (ConvertAlong tmp heap (World.TableFits tmp) fuel (d + 1)) d w.brk es w₀ :=
        fun w' => scriptEntries_iff (ih (d + 1)) hleaves es w₀ tb _ w' hs₀ hlt
      rw [halong, doConvert_succ hes hnew]
      -- both return the table that was made, when the loop ends
      have hscript : convertTableToLt tmp heap (fuel + 1) id w
          = (scriptEntries tmp (convertTableToLt tmp heap fuel) w.brk es w₀).bind fun x =>
              match x.1 with
              | .error e => some (.error e, x.2)
              | .ok _ => some (.ok w.brk, x.2) := by
        rw [convertTableToLt, hes]
        simp only [Option.bind_eq_bind, Option.bind_some, hnew]
        refine congrArg _ (funext fun x => ?_)
        obtain ⟨o, w₁⟩ := x
        cases o <;> rfl
      rw [hscript]
      constructor
      · intro hx
        obtain ⟨⟨o, w₁⟩, hrun, hx⟩ := Option.bind_eq_some_iff.mp hx
        cases o with
        | error err => cases hx
        | ok u =>
          obtain ⟨hrunL, hentries⟩ := (hloop w₁).mp hrun
          refine ⟨?_, hentries⟩
          rw [hrunL]
          exact hx
      · rintro ⟨hx, hentries⟩
        obtain ⟨⟨o, w₁⟩, hrun, hx⟩ := Option.bind_eq_some_iff.mp hx
        cases o with
        | error err => cases hx
        | ok u =>
          rw [(hloop w₁).mpr ⟨hrun, hentries⟩]
          exact hx

/-- Wherever the script returns a light table, `do_convert` returns the same
one in the same memory; and the other way round exactly when no nested table
meets a key of another type. -/
theorem convertTableToLt_iff {fuel : Nat} {root : Addr} (hw : w.Tidy) :
    convertTableToLt tmp heap fuel id w = some (.ok root, w')
      ↔ doConvert tmp heap fuel id w = some (.ok root, w')
        ∧ ConvertAlong tmp heap (World.TableFits tmp) fuel 0 id w :=
  convertTableToLt_ok fuel 0 id w root w' hw

/-- The two converters on a table that holds another one twice. -/
theorem convertTableToLt_iff_shared :
    ∃ root w', convertTableToLt .blank sharedHeap 2 1 .empty = some (.ok root, w')
      ∧ (convertTableToLt .blank sharedHeap 2 1 .empty = some (.ok root, w')
        ↔ doConvert .blank sharedHeap 2 1 .empty = some (.ok root, w')
          ∧ ConvertAlong .blank sharedHeap (World.TableFits .blank) 2 0 1 .empty) := by
  have hgo : (convertTableToLt .blank sharedHeap 2 1 .empty).map Prod.fst = some (.ok 1) := by
    decide +kernel
  obtain ⟨⟨o, w'⟩, hrun, rfl⟩ := Option.map_eq_some_iff.mp hgo
  exact ⟨1, w', hrun, convertTableToLt_iff World.empty_tidy⟩

/-- A number under 1, and a table under 1.5, which is the same key. -/
def roundedHeap : LuaHeap :=
  .ofList [(1, [(.number 4607182418800017408, .number 0), (.number 4609434218613702656, .table 2)]),
    (2, [])]

-- `do_convert` drops the nested table, the script raises an error
example : (doConvert .blank roundedHeap 2 1 .empty).map Prod.fst = some (.ok 1)
    ∧ (convertTableToLt .blank roundedHeap 2 1 .empty).map Prod.fst
      = some (.error "Can't set 1 with type userdata") := by decide +kernel

/-! ## §5. Supported tables. -/

/-- A nested table fits a key that the table does not have. -/
theorem World.ofNewKeys_tableFits : OfNewKeys (World.TableFits tmp) := by
  intro d w t s tb m k v key hrep hw hk habs
  by_cases hv : ∃ id, v = .table id
  · obtain ⟨id, rfl⟩ := hv
    rw [World.tableFits_table hk.getKey]
    unfold World.Mismatch
    rw [(hrep.sound hw).typeOf, (hrep.typeAt_eq_nil key).mpr habs]
    exact fun hmis => hmis.1 rfl
  · exact World.tableFits_scalar (fun id hid => hv ⟨id, hid⟩)

/-- Whatever finite, acyclic Lua table with supported keys and values it is
given, the script returns what `do_convert` returns, and iterating over it
gives the table back. -/
theorem script_givesBack {L : Finset Addr} (hlawful : heap.Lawful) (hc : heap.Convertible id L)
    (hshort : heap.ShortStrings id) (hw : w.Tidy)
    (halong : ConvertAlong tmp heap (World.BucketsFit tmp) L.card 0 id w) :
    ∃ root w', convertTableToLt tmp heap L.card id w = some (.ok root, w')
      ∧ doConvert tmp heap L.card id w = some (.ok root, w') ∧ w'.GivesBack heap root id := by
  obtain ⟨root, w', hrun, hback⟩ := doConvert_givesBack hlawful hc hshort hw halong
  have hfits : ConvertAlong tmp heap (World.TableFits tmp) L.card 0 id w :=
    (doConvert_converted World.ofNewKeys_tableFits hlawful hc hw halong).2
  exact ⟨root, w', (convertTableToLt_ok L.card 0 id w root w' hw).mpr ⟨hrun, hfits⟩, hrun, hback⟩

/-- The script on a table that holds another one twice. -/
theorem script_givesBack_shared :
    ∃ root w', convertTableToLt .blank sharedHeap ({1, 2} : Finset Addr).card 1 .empty
        = some (.ok root, w')
      ∧ doConvert .blank sharedHeap ({1, 2} : Finset Addr).card 1 .empty = some (.ok root, w')
      ∧ w'.GivesBack sharedHeap root 1 :=
  script_givesBack sharedHeap_lawful sharedHeap_convertible sharedHeap_shortStrings
    World.empty_tidy (by decide +kernel)

end LightTable
