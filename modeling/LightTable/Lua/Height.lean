/-
  LightTable.Lua.Height
  ─────────────────────
  How high the Lua stack gets during a conversion.

  Every level of the recursion keeps four values on the one stack of
  `_convert`, and nobody asks for more than the twenty slots that a C function
  is given.  They are enough for four nested levels, in the last of which no
  error may be raised (`convert_withinStack_iff`).
-/
import LightTable.Lua.Recursion

namespace LightTable

open Fuel

variable {heap : LuaHeap} {es : List (LuaValue × LuaValue)} {k v : LuaValue} {tmp : Value}
  {t id : Addr} {fuel : Nat} {below : List LuaValue} {w w' : World}

/-! ## §1. The condition of a round. -/

/-- `LUA_MINSTACK`: the slots above its arguments that a C function may use
without asking. -/
def luaMinStack : Nat := 20

/-- A round raises an error of its own: its key or its value is of an
unsupported type, or the table holds another type under the key. -/
def World.Raises (tmp : Value) (w : World) (t : Addr) (e : LuaValue × LuaValue) : Prop :=
  (∃ msg, getKey e.1 = some (.error msg)) ∨ ∃ gk, getKey e.1 = some (.ok gk) ∧ nestedTable e = none
    ∧ ∀ arg, e.2.arg = some arg → w.Mismatch t ⟨gk, arg, tmp⟩

/-- A nested table is gone into, and an error is raised, at most three levels
below the argument. -/
def World.StaysShallow (tmp : Value) (d : Nat) (w : World) (t : Addr) (e : LuaValue × LuaValue) : Prop :=
  (nestedTable e).isSome ∨ w.Raises tmp t e → d < 4

variable {args d : Nat}

/-- In a round without an error of its own the condition is about the call. -/
theorem World.staysShallow_scalar {tb : Table} {m : LMap} (h : w.Sound t tb m) {gk : Key} {o : Outcome Unit}
    (hk : getKey k = some (.ok gk)) (hv : ∀ id', v ≠ .table id')
    (hset : w.setValue t gk v tmp = some (o, w')) :
    World.StaysShallow tmp d w t (k, v) ↔ ((∃ e, o = .error e) → d < 4) := by
  -- no table is involved, so an error is one of the setter
  have hraise : w.Raises tmp t (k, v) ↔ ∃ e, o = .error e := by
    unfold World.Raises
    rw [hk, nestedTable_scalar hv]
    simp only [Option.some.injEq, reduceCtorEq, exists_false, false_or, Outcome.ok.injEq,
      exists_eq_left', true_and]
    rcases World.setValue_cases hset with ⟨harg, -, he⟩ | ⟨arg, r, harg, hcall, hok⟩
    · rw [harg]
      exact ⟨fun _ => he, fun _ arg h => absurd h (by simp)⟩
    · have hne := h.set_nonzero_iff hcall
      rw [harg]
      constructor
      · intro hmis
        have hr := hne.mpr (hmis arg rfl)
        cases o with
        | error e => exact ⟨e, rfl⟩
        | ok u => exact absurd (hok.mp rfl) hr
      · rintro ⟨e, rfl⟩ arg' harg'
        cases harg'
        apply hne.mp
        intro hr
        exact absurd (hok.mpr hr) (by simp)
  unfold World.StaysShallow
  rw [nestedTable_scalar hv, hraise]
  simp

/-! ## §2. The height. -/

/-- What the height of the stack says of a call at depth `d`, with four values
for each level below. -/
def PeakMeans (args : Nat) (p : Nat) (st : LuaStack) (along : Prop) : Prop :=
  p ≤ st.peak ∧ (p ≤ args + luaMinStack → (st.peak ≤ args + luaMinStack ↔ along))

/-- The loop of a table at depth `d`, with the last key above the table. -/
theorem LuaStack.convertLoop_peak (hlawful : heap.Lawful) (hes : heap id = some es)
    (hbase : below.length + 1 = args + 4 * d)
    (hsub : ∀ id' below' p w o st w', w.Tidy → below'.length + 1 = args + 4 * (d + 1) →
      LuaStack.doConvert tmp heap fuel ⟨.table id' :: below', p⟩ w = .ok (o, st, w') →
      PeakMeans args p st (d + 1 ≤ 4 ∧ ConvertAlong tmp heap (World.StaysShallow tmp) fuel (d + 1) id' w))
    (rest : List (LuaValue × LuaValue)) :
    ∀ (key : LuaValue) (p : Nat) (w : World) (tb : Table) (m : LMap) (o : Outcome Unit) (st : LuaStack)
      (w' : World), w.Sound t tb m → t < w.brk → entriesAfter es key = some rest →
      below.length + 2 ≤ p →
      LuaStack.convertLoop tmp heap (LuaStack.doConvert tmp heap fuel) t (rest.length + 1)
        ⟨key :: .table id :: below, p⟩ w = .ok (o, st, w') →
      PeakMeans args p st (EntriesAlong tmp (World.StaysShallow tmp) (LightTable.doConvert tmp heap fuel)
        (ConvertAlong tmp heap (World.StaysShallow tmp) fuel (d + 1)) d t rest w) := by
  induction rest with
  | nil =>
      intro key p w tb m o st w' _ _ hr _ hx
      rw [List.length_nil, LuaStack.convertLoop_end hes hr] at hx
      cases hx
      exact ⟨Nat.le_refl p, fun hp => ⟨fun _ => trivial, fun _ => hp⟩⟩
  | cons e rest ih =>
      intro key p w tb m o st w' hs ht hr hp₀ hx
      obtain ⟨k, v⟩ := e
      have hnext := hlawful.entriesAfter hes hr
      rw [List.length_cons] at hx
      cases hk : getKey k with
      | none =>
          rw [LuaStack.convertLoop_noKey hes hr hk] at hx
          cases hx
      | some gk =>
          cases gk with
          | error err =>
              rw [LuaStack.convertLoop_badKey hes hr hk] at hx
              cases hx
              have hpeak := LuaStack.error_inRound_peak k v id below p
              have hg : World.StaysShallow tmp d w t (k, v) ↔ d < 4 := by
                unfold World.StaysShallow
                have hraise : w.Raises tmp t (k, v) := Or.inl ⟨err, hk⟩
                simp [hraise]
              unfold PeakMeans luaMinStack
              rw [entriesAlong_badKey hk, hg, hpeak]
              omega
          | ok gk =>
              by_cases hv : ∃ id', v = .table id'
              · obtain ⟨id', rfl⟩ := hv
                rw [LuaStack.convertLoop_table hes hr hk] at hx
                obtain ⟨⟨s, st₁, w₁⟩, hcall, hx⟩ := Result.bind_eq_ok.mp hx
                have hmeans := hsub id' _ _ w s st₁ w₁ hs.tidy (by simp only [List.length_cons]; omega) hcall
                have hrefines := LuaStack.doConvert_refines hlawful tmp fuel id'
                  (k :: .table id' :: k :: .table id :: below) (max p (below.length + 5)) w
                have hlist : LightTable.doConvert tmp heap fuel id' w = some (s, w₁) := by
                  rw [← hrefines.ends, hcall]
                  rfl
                have hg : World.StaysShallow tmp d w t (k, .table id') ↔ d < 4 := by
                  unfold World.StaysShallow
                  rw [nestedTable_table hk]
                  simp
                unfold PeakMeans luaMinStack at hmeans ⊢
                obtain ⟨hle, hiff⟩ := hmeans
                cases s with
                | error err =>
                    have hx : Result.ok (Outcome.error err, st₁, w₁) = .ok (o, st, w') := hx
                    cases hx
                    rw [entriesAlong_tableError hk hlist, hg]
                    refine ⟨by omega, ?_⟩
                    intro hp
                    rw [hiff (by omega)]
                    exact and_congr_left' (by omega)
                | ok s =>
                    obtain ⟨y, hset, hx⟩ := Result.bind_eq_ok.mp hx
                    have hset : w₁.set t ⟨gk, .ud s, tmp⟩ = some y := Result.ofOption_eq_ok.mp hset
                    have hpop : st₁.pop 3 = ⟨k :: .table id :: below, st₁.peak⟩ :=
                      LuaStack.pop_three (hrefines.values s st₁ w₁ hcall)
                    simp only [hpop] at hx
                    -- the parent was not touched by the call
                    obtain ⟨⟨tb', m', hs'⟩, hl, -⟩ := doConvert_leaves fuel id' w (.ok s) w₁ hs.tidy hlist
                    have hs₁ := hs.left hl hs'.tidy ht (Nat.ne_of_lt ht)
                    obtain ⟨tb₂, m₂, hs₂⟩ := hs₁.set hset
                    have ht₂ : t < y.2.brk :=
                      Nat.lt_of_lt_of_le ht (Nat.le_trans hl.brk (hs₁.set_leaves hset).brk)
                    obtain ⟨hle₂, hiff₂⟩ := ih k st₁.peak y.2 tb₂ m₂ o st w' hs₂ ht₂ hnext
                      (by omega) hx
                    unfold luaMinStack at hiff₂
                    rw [entriesAlong_table hk hlist hset, hg]
                    refine ⟨by omega, ?_⟩
                    intro hp
                    have hiff := hiff (by omega)
                    constructor
                    · intro hpeak
                      have h₁ : st₁.peak ≤ args + 20 := Nat.le_trans hle₂ hpeak
                      obtain ⟨hd', halong⟩ := hiff.mp h₁
                      exact ⟨Nat.lt_of_succ_le hd', halong, (hiff₂ h₁).mp hpeak⟩
                    · rintro ⟨hd', halong, hrest⟩
                      exact (hiff₂ (hiff.mpr ⟨hd', halong⟩)).mpr hrest
              · have hv : ∀ id', v ≠ .table id' := fun id' h => hv ⟨id', h⟩
                rw [LuaStack.convertLoop_scalar hes hr hk hv] at hx
                obtain ⟨⟨u, w₁⟩, hset, hx⟩ := Result.bind_eq_ok.mp hx
                have hset := Result.ofOption_eq_ok.mp hset
                have hg := World.staysShallow_scalar (d := d) hs hk hv hset
                cases u with
                | error err =>
                    cases hx
                    have hpeak := LuaStack.error_inRound_peak k v id below p
                    have hg : World.StaysShallow tmp d w t (k, v) ↔ d < 4 := by
                      rw [hg]
                      simp
                    unfold PeakMeans luaMinStack
                    rw [entriesAlong_refused hk hv hset, hg, hpeak]
                    omega
                | ok u =>
                    obtain ⟨hl₁, tb₁, m₁, hs₁⟩ := hs.setValue_leaves hset
                    have hrest := ih k _ w₁ tb₁ m₁ o st w' hs₁ (Nat.lt_of_lt_of_le ht hl₁.brk) hnext
                      (by omega) hx
                    have hg : World.StaysShallow tmp d w t (k, v) := by
                      rw [hg]
                      rintro ⟨e, he⟩
                      cases he
                    unfold PeakMeans luaMinStack at hrest ⊢
                    rw [entriesAlong_scalar hk hv hset]
                    obtain ⟨hle, hiff⟩ := hrest
                    refine ⟨by omega, ?_⟩
                    intro hp
                    rw [hiff (by omega)]
                    exact ⟨fun h => ⟨hg, h⟩, And.right⟩

/-- A call at depth `d` with `4 * d` values above the arguments. -/
theorem LuaStack.doConvert_peak (hlawful : heap.Lawful) (args fuel : Nat) :
    ∀ (d : Nat) (id : Addr) (below : List LuaValue) (p : Nat) (w : World) (o : Outcome Addr)
      (st : LuaStack) (w' : World), w.Tidy → below.length + 1 = args + 4 * d →
      LuaStack.doConvert tmp heap fuel ⟨.table id :: below, p⟩ w = .ok (o, st, w') →
      PeakMeans args p st (d ≤ 4 ∧ ConvertAlong tmp heap (World.StaysShallow tmp) fuel d id w) := by
  induction fuel with
  | zero =>
      intro d id below p w o st w' _ _ hx
      cases hx
  | succ fuel ih =>
      intro d id below p w o st w' hw hbase hx
      cases hes : heap id with
      | none =>
          rw [LuaStack.doConvert_none hes] at hx
          cases hx
      | some es =>
          obtain ⟨w₀, -, hnew, -⟩ := w.newTable_spec
          obtain ⟨-, -, hlt, tb, hs₀⟩ := World.newTable_leaves hw hnew
          rw [LuaStack.doConvert_succ hes hnew] at hx
          obtain ⟨⟨u, st₁, w₁⟩, hloop, hx⟩ := Result.bind_eq_ok.mp hx
          have hst : st₁ = st := by
            cases u with
            | error err => cases hx; rfl
            | ok u => cases hx; rfl
          subst hst
          have halong : ConvertAlong tmp heap (World.StaysShallow tmp) (fuel + 1) d id w
              ↔ EntriesAlong tmp (World.StaysShallow tmp) (LightTable.doConvert tmp heap fuel)
                (ConvertAlong tmp heap (World.StaysShallow tmp) fuel (d + 1)) d w.brk es w₀ := by
            rw [ConvertAlong, hes, hnew]
            simp
          obtain ⟨hle, hiff⟩ := LuaStack.convertLoop_peak hlawful hes hbase
            (fun id' below' p w o st w' hw hb hx => ih (d + 1) id' below' p w o st w' hw hb hx)
            es .nil _ w₀ tb _ u st₁ w₁ hs₀ hlt rfl (by omega) hloop
          unfold PeakMeans luaMinStack at *
          rw [halong]
          refine ⟨by omega, ?_⟩
          intro hp
          by_cases hd : d ≤ 4
          · rw [hiff (by omega)]
            exact ⟨fun h => ⟨hd, h⟩, And.right⟩
          · -- the `nil` above the fifth nested table is the twenty-first value
            constructor
            · intro hpeak
              omega
            · rintro ⟨hd', -⟩
              exact absurd hd' hd

/-- Conversion keeps to the slots that Lua guarantees exactly when every table
it goes into is nested at most four deep, and no entry of a table nested four
deep raises an error. -/
theorem convert_withinStack_iff (hlawful : heap.Lawful) (hw : w.Tidy) {o : Outcome LuaValue}
    {st : LuaStack}
    (hx : LuaStack.convert tmp heap fuel (.table id :: below) w = .ok (o, st, w')) :
    st.peak ≤ (below.length + 1) + luaMinStack
      ↔ ConvertAlong tmp heap (World.StaysShallow tmp) fuel 0 id w := by
  obtain ⟨⟨s, st₁, w₁⟩, hcall, hx⟩ := Result.bind_eq_ok.mp hx
  have hcall : LuaStack.doConvert tmp heap fuel ⟨.table id :: below, below.length + 1⟩ w
      = .ok (s, st₁, w₁) := hcall
  obtain ⟨hle, hiff⟩ := LuaStack.doConvert_peak hlawful (below.length + 1) fuel 0 id below _ w s st₁ w₁
    hw rfl hcall
  have hiff := hiff (Nat.le_add_right _ _)
  have hpeak : st.peak ≤ (below.length + 1) + luaMinStack
      ↔ st₁.peak ≤ (below.length + 1) + luaMinStack := by
    cases s with
    | error err =>
        cases hx
        exact Iff.rfl
    | ok s =>
        have hvals := (LuaStack.doConvert_refines hlawful tmp fuel id below _ w).values s st₁ w₁ hcall
        cases hx
        unfold LuaStack.push luaMinStack
        rw [hvals]
        show max st₁.peak (below.length + 1 + 1) ≤ _ ↔ _
        omega
  rw [hpeak, hiff]
  exact ⟨And.right, fun h => ⟨Nat.zero_le 4, h⟩⟩

/-- One level below the argument. -/
theorem convert_withinStack_iff_shared :
    ∃ o st w', LuaStack.convert .blank sharedHeap 2 [.table 1] .empty = .ok (o, st, w')
      ∧ (st.peak ≤ ([] : List LuaValue).length + 1 + luaMinStack
        ↔ ConvertAlong .blank sharedHeap (World.StaysShallow .blank) 2 0 1 .empty) := by
  have hok : (LuaStack.convert .blank sharedHeap 2 [.table 1] .empty).toOption.isSome = true := by
    decide +kernel
  obtain ⟨⟨o, st, w'⟩, hx⟩ := Option.isSome_iff_exists.mp hok
  have hx := Result.toOption_eq_some.mp hx
  have hx : LuaStack.convert .blank sharedHeap 2 (.table 1 :: []) .empty = .ok (o, st, w') := hx
  exact ⟨o, st, w', hx, convert_withinStack_iff sharedHeap_lawful World.empty_tidy hx⟩

/-- Six tables, each in the one before. -/
def deepHeap : LuaHeap :=
  .ofList [(1, [(.string [97], .table 2)]), (2, [(.string [97], .table 3)]),
    (3, [(.string [97], .table 4)]), (4, [(.string [97], .table 5)]),
    (5, [(.string [97], .table 6)]), (6, [])]

theorem deepHeap_holds {a b : Addr} (h : deepHeap.Holds a b) : a < b := by
  obtain ⟨es, k, hes, hmem⟩ := h
  have hes := LuaHeap.ofList_mem hes
  simp only [List.mem_cons, Prod.mk.injEq, List.not_mem_nil, or_false] at hes
  rcases hes with ⟨rfl, rfl⟩ | ⟨rfl, rfl⟩ | ⟨rfl, rfl⟩ | ⟨rfl, rfl⟩ | ⟨rfl, rfl⟩ | ⟨rfl, rfl⟩
  all_goals simp only [List.mem_cons, Prod.mk.injEq, LuaValue.table.injEq, List.not_mem_nil,
    or_false] at hmem
  all_goals
    rw [hmem.2]
    decide

/-- Five levels of nesting are one too many: twenty-one values. -/
theorem convert_exceeds_stack :
    (∀ a b, deepHeap.Holds a b → a < b)
      ∧ ∃ o st w', LuaStack.convert .blank deepHeap 6 [.table 1] .empty = .ok (o, st, w')
        ∧ st.peak = 22 ∧ ¬ st.peak ≤ 1 + luaMinStack := by
  have hrun : (LuaStack.convert .blank deepHeap 6 [.table 1] .empty).toOption.map
      (fun x => x.2.1.peak) = some 22 := by decide +kernel
  obtain ⟨⟨o, st, w'⟩, hx, hpeak⟩ := Option.map_eq_some_iff.mp hrun
  have hpeak : st.peak = 22 := hpeak
  refine ⟨fun a b h => deepHeap_holds h, o, st, w', Result.toOption_eq_some.mp hx, hpeak, ?_⟩
  rw [hpeak]
  decide

end LightTable
