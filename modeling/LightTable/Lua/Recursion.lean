/-
  LightTable.Lua.Recursion
  ────────────────────────
  What the nested calls of `do_convert` leave alone, and what an error leaves
  behind.

  A call changes only the tables that it makes itself (`doConvert_leaves`).  An
  error leaves by a jump that passes every level, and none of the tables made
  so far is released (`convert_error_leaks`).  A condition on the rounds of a
  conversion is stated along the run (`ConvertAlong`).
-/
import LightTable.Lua.Stack
import LightTable.Table.Collection

namespace LightTable

open Fuel Relation

variable {heap : LuaHeap} {es rest : List (LuaValue × LuaValue)} {key k v : LuaValue}
  {tmp : Value} {sub : LuaStack → World → Result (Outcome Addr × LuaStack × World)}
  {t id : Addr} {fuel n p : Nat} {below : List LuaValue} {w w' : World}

/-! ## §1. The graph of the tables. -/

/-- The table `b` is a value in the table `a`. -/
def LuaHeap.Holds (heap : LuaHeap) (a b : Addr) : Prop :=
  ∃ es k, heap a = some es ∧ (k, LuaValue.table b) ∈ es

/-- The heap with the listed tables. -/
def LuaHeap.ofList (l : List (Addr × List (LuaValue × LuaValue))) : LuaHeap :=
  fun id => (l.find? (fun x => decide (x.1 = id))).map Prod.snd

theorem LuaHeap.ofList_mem {l : List (Addr × List (LuaValue × LuaValue))}
    (h : LuaHeap.ofList l id = some es) : (id, es) ∈ l := by
  obtain ⟨x, hx, rfl⟩ := Option.map_eq_some_iff.mp h
  have hid : x.1 = id := by simpa using List.find?_some hx
  rw [← hid]
  exact List.mem_of_find?_eq_some hx

/-- The keys of one table are as they must be. -/
def LawfulEntries (es : List (LuaValue × LuaValue)) : Prop :=
  (∀ e ∈ es, e.1 ≠ .nil ∧ rawequal e.1 e.1 = true)
    ∧ es.Pairwise (fun e e' => rawequal e.1 e'.1 = false)

instance (es : List (LuaValue × LuaValue)) : Decidable (LawfulEntries es) :=
  inferInstanceAs (Decidable (_ ∧ _))

theorem LuaHeap.ofList_lawful {l : List (Addr × List (LuaValue × LuaValue))}
    (h : ∀ x ∈ l, LawfulEntries x.2) : (LuaHeap.ofList l).Lawful :=
  fun _ _ hes => h _ (LuaHeap.ofList_mem hes)

/-- A table with one table under two keys. -/
def sharedHeap : LuaHeap :=
  .ofList [(1, [(.string [97], .table 2), (.string [98], .table 2)]), (2, [(.string [97], .number 0)])]

theorem sharedHeap_lawful : sharedHeap.Lawful := LuaHeap.ofList_lawful (by decide)

theorem sharedHeap_holds {a b : Addr} (h : sharedHeap.Holds a b) : a = 1 ∧ b = 2 := by
  obtain ⟨es, k, hes, hmem⟩ := h
  have hes := LuaHeap.ofList_mem hes
  simp only [List.mem_cons, Prod.mk.injEq, List.not_mem_nil, or_false] at hes
  rcases hes with ⟨rfl, rfl⟩ | ⟨rfl, rfl⟩
  · simp only [List.mem_cons, Prod.mk.injEq, LuaValue.table.injEq, List.not_mem_nil, or_false] at hmem
    exact ⟨rfl, hmem.elim And.right And.right⟩
  · simp at hmem

theorem sharedHeap_finite {b : Addr} (h : ReflTransGen sharedHeap.Holds 1 b) :
    b ∈ ({1, 2} : Finset Addr) := by
  induction h with
  | refl => decide
  | tail _ hbc _ =>
      rw [(sharedHeap_holds hbc).2]
      decide

theorem sharedHeap_acyclic (b : Addr) : ¬ TransGen sharedHeap.Holds b b := by
  have hfirst : ∀ c, TransGen sharedHeap.Holds b c → b = 1 ∧ c = 2 := by
    intro c hc
    induction hc with
    | single hab => exact sharedHeap_holds hab
    | tail _ hbc ih => exact ⟨ih.1, (sharedHeap_holds hbc).2⟩
  intro hcyc
  obtain ⟨h₁, h₂⟩ := hfirst b hcyc
  exact absurd (h₁.symm.trans h₂) (by decide)

/-! ## §2. What a conversion leaves alone. -/

/-- Of the tables that were there only `t` may have changed, and no table was
destroyed. -/
structure World.Leaves (t : Addr) (w w' : World) : Prop where
  brk : w.brk ≤ w'.brk
  tables : ∀ a, a < w.brk → a ≠ t → w'.tables a = w.tables a
  destroyed : w'.destroyed = w.destroyed

theorem World.Leaves.refl (t : Addr) (w : World) : World.Leaves t w w where
  brk := Nat.le_refl _
  tables := fun _ _ _ => rfl
  destroyed := rfl

theorem World.Leaves.trans {w'' : World} (h₁ : World.Leaves t w w') (h₂ : World.Leaves t w' w'') :
    World.Leaves t w w'' where
  brk := Nat.le_trans h₁.brk h₂.brk
  tables := by
    intro a ha hat
    rw [h₂.tables a (Nat.lt_of_lt_of_le ha h₁.brk) hat]
    exact h₁.tables a ha hat
  destroyed := h₂.destroyed.trans h₁.destroyed

variable {tb : Table} {m : LMap}

/-- Swapping a slot destroys no table. -/
theorem World.updateString_destroyed {str : Addr} {bytes : Bytes}
    (hx : w.updateString str bytes = some w') : w'.destroyed = w.destroyed := by
  unfold World.updateString World.swapSlot World.decSlot at hx
  simp only [Option.bind_eq_bind, Option.bind_eq_some_iff] at hx
  obtain ⟨⟨⟨old, ref⟩, w₁⟩, hswap, hx⟩ := hx
  obtain ⟨ls, -, ⟨⟨r, w₂⟩, hdec, hswap⟩⟩ := hswap
  obtain ⟨sl, -, hdec⟩ := hdec
  cases hdec
  cases hswap
  by_cases href : asInt (sl.ref - 1) = 0
  · rw [if_pos href] at hx
    unfold World.freeSlot at hx
    obtain ⟨sl', -, hx⟩ := Option.bind_eq_some_iff.mp hx
    rw [← Option.some.inj hx]
    rfl
  · rw [if_neg href] at hx
    rw [← Option.some.inj hx]
    rfl

theorem World.Sound.set_leaves (h : w.Sound t tb m) {c : SetCall} {r : Int}
    (hx : w.set t c = some (r, w')) : World.Leaves t w w' := by
  obtain ⟨hbrk, hother⟩ := h.set_others hx
  refine ⟨hbrk, fun a _ hat => hother a hat, ?_⟩
  cases h.set_case hx with
  | refused hc n hn hty hw => rw [hw]
  | swapped str harg n hn hty hup => exact World.updateString_destroyed hup
  | insertedString str harg hn type hins =>
    obtain ⟨-, hframe, -⟩ :=
      (h.withString str).insertTable (show LType.string ≠ .nil by decide) hins
    exact hframe.destroyed
  | insertedPlain hty type hins =>
    obtain ⟨-, hframe, -⟩ := h.insertTable c.arg.type_ne_nil hins
    exact hframe.destroyed

/-- A round on a value that is no table. -/
theorem World.Sound.setValue_leaves (h : w.Sound t tb m) {gk : Key} {o : Outcome Unit}
    (hx : w.setValue t gk v tmp = some (o, w')) :
    World.Leaves t w w' ∧ ∃ tb' m', w'.Sound t tb' m' := by
  rcases World.setValue_cases hx with ⟨-, rfl, -⟩ | ⟨arg, r, -, hset, -⟩
  · exact ⟨World.Leaves.refl t _, tb, m, h⟩
  · exact ⟨h.set_leaves hset, h.set hset⟩

/-- Making a table leaves the others alone. -/
theorem World.newTable_leaves (hw : w.Tidy) {w₀ : World} (hnew : w.newTable = some (t, w₀)) :
    t = w.brk ∧ World.Leaves t w w₀ ∧ w.brk < w₀.brk ∧ ∃ tb, w₀.Sound t tb (LMap.new 29) := by
  have hs := World.Sound.newTable hw hnew
  obtain ⟨rfl, hbrk, -, -, hdestroyed, hother, -⟩ := World.of_newTable hnew
  refine ⟨rfl, ⟨?_, fun a _ hat => hother a hat, hdestroyed⟩, ?_, hs⟩
  · rw [hbrk]
    exact Nat.le_add_right _ 2
  · rw [hbrk]
    exact Nat.lt_add_of_pos_right Nat.two_pos

/-- A table that a step leaves alone is as sound as before. -/
theorem World.Sound.left (h : w.Sound t tb m) {a : Addr} (hl : World.Leaves a w w') (hw : w'.Tidy)
    (ht : t < w.brk) (hne : t ≠ a) : w'.Sound t tb m :=
  ⟨h.toOwns.moved (hl.tables t ht hne) hl.brk, h.wf, hw⟩

/-- The loop changes its own table only, whatever the calls on nested tables
do to the tables that they make. -/
theorem convertEntries_leaves {subL : Addr → World → Option (Outcome Addr × World)}
    (hsub : ∀ id w o w', w.Tidy → subL id w = some (o, w') → w'.Tidy ∧ World.Leaves w.brk w w')
    (rest : List (LuaValue × LuaValue)) :
    ∀ (w : World) (tb : Table) (m : LMap) (o : Outcome Unit) (w' : World), w.Sound t tb m →
      t < w.brk → convertEntries tmp subL t rest w = some (o, w') →
      (∃ tb' m', w'.Sound t tb' m') ∧ World.Leaves t w w' := by
  induction rest with
  | nil =>
      intro w tb m o w' h _ hx
      cases hx
      exact ⟨⟨tb, m, h⟩, World.Leaves.refl t w⟩
  | cons e rest ih =>
      intro w tb m o w' h ht hx
      obtain ⟨k, v⟩ := e
      cases hk : getKey k with
      | none =>
          rw [convertEntries_noKey hk] at hx
          exact absurd hx (by simp)
      | some gk =>
          cases gk with
          | error err =>
              rw [convertEntries_badKey hk] at hx
              cases hx
              exact ⟨⟨tb, m, h⟩, World.Leaves.refl t w⟩
          | ok gk =>
              by_cases hv : ∃ id', v = .table id'
              · obtain ⟨id', rfl⟩ := hv
                rw [convertEntries_table hk] at hx
                obtain ⟨⟨s, w₁⟩, hcall, hx⟩ := Option.bind_eq_some_iff.mp hx
                obtain ⟨htidy, hleaves⟩ := hsub id' w s w₁ h.tidy hcall
                have hne : t ≠ w.brk := Nat.ne_of_lt ht
                have hs₁ := h.left hleaves htidy ht hne
                -- the tables made by the call lie above the ones that were there
                have hle : World.Leaves t w w₁ :=
                  ⟨hleaves.brk, fun a ha _ => hleaves.tables a ha (Nat.ne_of_lt ha), hleaves.destroyed⟩
                cases s with
                | error err =>
                    cases hx
                    exact ⟨⟨tb, m, hs₁⟩, hle⟩
                | ok s =>
                    obtain ⟨⟨r, w₂⟩, hset, hx⟩ := Option.bind_eq_some_iff.mp hx
                    have hset : w₁.set t ⟨gk, .ud s, tmp⟩ = some (r, w₂) := hset
                    have hl₂ := hs₁.set_leaves hset
                    obtain ⟨tb₂, m₂, hs₂⟩ := hs₁.set hset
                    have ht₂ : t < w₂.brk := Nat.lt_of_lt_of_le ht (Nat.le_trans hle.brk hl₂.brk)
                    obtain ⟨hend, hl⟩ := ih w₂ tb₂ m₂ o w' hs₂ ht₂ hx
                    exact ⟨hend, (hle.trans hl₂).trans hl⟩
              · have hv : ∀ id', v ≠ .table id' := fun id' h => hv ⟨id', h⟩
                rw [convertEntries_scalar hk hv] at hx
                obtain ⟨⟨s, w₁⟩, hset, hx⟩ := Option.bind_eq_some_iff.mp hx
                obtain ⟨hl₁, tb₁, m₁, hs₁⟩ := h.setValue_leaves hset
                cases s with
                | error err =>
                    cases hx
                    exact ⟨⟨tb₁, m₁, hs₁⟩, hl₁⟩
                | ok u =>
                    obtain ⟨hend, hl⟩ := ih w₁ tb₁ m₁ o w' hs₁ (Nat.lt_of_lt_of_le ht hl₁.brk) hx
                    exact ⟨hend, hl₁.trans hl⟩

/-- A call makes its table at the first free address.  Whether it returns or
raises an error, that table is there, the tables from before are as they were,
and no table was destroyed. -/
theorem doConvert_leaves (fuel : Nat) :
    ∀ (id : Addr) (w : World) (o : Outcome Addr) (w' : World), w.Tidy →
      doConvert tmp heap fuel id w = some (o, w') →
      (∃ tb m, w'.Sound w.brk tb m) ∧ World.Leaves w.brk w w' ∧ ∀ s, o = .ok s → s = w.brk := by
  induction fuel with
  | zero =>
      intro id w o w' _ hx
      exact absurd hx (by simp [doConvert])
  | succ fuel ih =>
      intro id w o w' hw hx
      cases hes : heap id with
      | none =>
          rw [doConvert_none hes] at hx
          exact absurd hx (by simp)
      | some es =>
          obtain ⟨w₀, -, hnew, -⟩ := w.newTable_spec
          rw [doConvert_succ hes hnew] at hx
          obtain ⟨-, hl₀, hlt, tb, hs₀⟩ := World.newTable_leaves hw hnew
          obtain ⟨⟨u, w₁⟩, hloop, hx⟩ := Option.bind_eq_some_iff.mp hx
          -- the calls on the tables in it leave the tables from before alone
          have hsub : ∀ id w o w', w.Tidy → doConvert tmp heap fuel id w = some (o, w') →
              w'.Tidy ∧ World.Leaves w.brk w w' := by
            intro id w o w' hw hx
            obtain ⟨⟨tb, m, hs⟩, hl, -⟩ := ih id w o w' hw hx
            exact ⟨hs.tidy, hl⟩
          obtain ⟨hend, hl⟩ := convertEntries_leaves hsub es w₀ tb _ u w₁ hs₀ hlt hloop
          cases u with
          | error err =>
              cases hx
              refine ⟨hend, hl₀.trans hl, ?_⟩
              intro s hs
              cases hs
          | ok u =>
              cases hx
              refine ⟨hend, hl₀.trans hl, ?_⟩
              intro s hs
              cases hs
              rfl

/-! ## §3. What an error leaks. -/

/-- A table made between the two worlds. -/
def World.Made (w w' : World) (a : Addr) : Prop :=
  w.brk ≤ a ∧ ((w'.tables a).isSome ∨ a ∈ w'.destroyed)

/-- Every table made between the two worlds was destroyed once. -/
def World.AllReleased (w w' : World) : Prop :=
  ∀ a, World.Made w w' a → w'.destroyed.count a = w.destroyed.count a + 1

/-- The stack program and the list program end in one world. -/
theorem LuaStack.of_convert (hlawful : heap.Lawful) {o : Outcome LuaValue} {st : LuaStack}
    (hx : LuaStack.convert tmp heap fuel (.table id :: below) w = .ok (o, st, w')) :
    ∃ o', LightTable.doConvert tmp heap fuel id w = some (o', w') := by
  obtain ⟨⟨o', st', w₁⟩, hcall, hx⟩ := Result.bind_eq_ok.mp hx
  have hends := (LuaStack.doConvert_refines hlawful tmp fuel id below
    (below.length + 1) w).ends
  have hcall : LuaStack.doConvert tmp heap fuel ⟨.table id :: below, below.length + 1⟩ w
      = .ok (o', st', w₁) := hcall
  rw [hcall, Result.toOption_ok, Option.map_some] at hends
  cases o' with
  | error e =>
      cases hx
      exact ⟨.error e, hends.symm⟩
  | ok s =>
      cases hx
      exact ⟨.ok s, hends.symm⟩

/-- When `lighttable.convert` raises an error, wherever it is raised, the
table made for its argument is still there and was never released. -/
theorem convert_error_leaks (hlawful : heap.Lawful) (hw : w.Tidy) {e : String} {st : LuaStack}
    (hx : LuaStack.convert tmp heap fuel (.table id :: below) w = .ok (.error e, st, w')) :
    ¬ World.AllReleased w w' := by
  obtain ⟨o, hcall⟩ := LuaStack.of_convert hlawful hx
  obtain ⟨⟨tb, m, hs⟩, hl, -⟩ := doConvert_leaves fuel id w o w' hw hcall
  intro hall
  have hmade : World.Made w w' w.brk := ⟨Nat.le_refl _, Or.inl (by rw [hs.toOwns.table]; rfl)⟩
  have hcount := hall w.brk hmade
  rw [hl.destroyed] at hcount
  omega

/-- A key of an unsupported type in a nested table. -/
def badKeyHeap : LuaHeap :=
  .ofList [(1, [(.string [97], .number 0), (.string [98], .table 2)]), (2, [(.boolean true, .number 0)])]

theorem badKeyHeap_lawful : badKeyHeap.Lawful := LuaHeap.ofList_lawful (by decide)

/-- The error ends the conversion in the nested table. -/
theorem badKeyHeap_error :
    ∃ st w', LuaStack.convert .blank badKeyHeap 2 [.table 1] .empty
        = .ok (.error "Unsupported key type boolean", st, w')
      ∧ (w'.tables 1).isSome = true ∧ w'.destroyed = [] := by
  have hrun : (LuaStack.convert .blank badKeyHeap 2 [.table 1] .empty).toOption.map
      (fun x => (x.1, (x.2.2.tables 1).isSome, x.2.2.destroyed))
      = some (.error "Unsupported key type boolean", true, []) := by decide +kernel
  obtain ⟨⟨o, st, w'⟩, hx, hrun⟩ := Option.map_eq_some_iff.mp hrun
  simp only [Prod.mk.injEq] at hrun
  obtain ⟨rfl, htable, hdestroyed⟩ := hrun
  exact ⟨st, w', Result.toOption_eq_some.mp hx, htable, hdestroyed⟩

theorem convert_error_leaks_nested :
    ∃ e st w', LuaStack.convert .blank badKeyHeap 2 [.table 1] .empty = .ok (.error e, st, w')
      ∧ ¬ World.AllReleased .empty w' := by
  obtain ⟨st, w', hx, -⟩ := badKeyHeap_error
  exact ⟨_, st, w', hx, convert_error_leaks badKeyHeap_lawful World.empty_tidy hx⟩

/-- The table at address 1 was made and is never released. -/
theorem convert_error_keeps_table :
    ∃ e st w', LuaStack.convert .blank badKeyHeap 2 [.table 1] .empty = .ok (.error e, st, w')
      ∧ World.Made .empty w' 1 ∧ w'.destroyed.count 1 = 0 ∧ ¬ World.AllReleased .empty w' := by
  obtain ⟨st, w', hx, htable, hdestroyed⟩ := badKeyHeap_error
  have hmade : World.Made .empty w' 1 := ⟨Nat.le_refl _, Or.inl htable⟩
  refine ⟨_, st, w', hx, hmade, by rw [hdestroyed]; rfl, ?_⟩
  intro hall
  have hcount := hall 1 hmade
  rw [hdestroyed] at hcount
  exact absurd hcount (by decide)

/-! ## §4. Conditions along a conversion. -/

/-- The table that a round on the entry goes into. -/
def nestedTable (e : LuaValue × LuaValue) : Option Addr :=
  match getKey e.1, e.2 with
  | some (.ok _), .table id => some id
  | _, _ => none

/-- The world after a round, if the loop goes on. -/
def roundEnds (tmp : Value) (sub : Addr → World → Option (Outcome Addr × World)) (t : Addr)
    (e : LuaValue × LuaValue) (w : World) : Option World :=
  match convertEntries tmp sub t [e] w with
  | some (.ok (), w) => some w
  | _ => none

/-- `G d w t e` holds at the start of every round of a loop at depth `d`, for
the world, the table under construction and the entry of the round; `subAlong`
says the same of the nested calls. -/
def EntriesAlong (tmp : Value) (G : Nat → World → Addr → LuaValue × LuaValue → Prop)
    (sub : Addr → World → Option (Outcome Addr × World)) (subAlong : Addr → World → Prop) (d : Nat)
    (t : Addr) : List (LuaValue × LuaValue) → World → Prop
  | [], _ => True
  | e :: rest, w => G d w t e ∧ (∀ id ∈ nestedTable e, subAlong id w)
      ∧ ∀ w' ∈ roundEnds tmp sub t e w, EntriesAlong tmp G sub subAlong d t rest w'

/-- `G` holds at the start of every round of a conversion. -/
def ConvertAlong (tmp : Value) (heap : LuaHeap) (G : Nat → World → Addr → LuaValue × LuaValue → Prop) :
    Nat → Nat → Addr → World → Prop
  | 0, _, _, _ => True
  | fuel + 1, d, id, w => ∀ es ∈ heap id, ∀ x ∈ w.newTable,
      EntriesAlong tmp G (doConvert tmp heap fuel) (ConvertAlong tmp heap G fuel (d + 1)) d x.1 es x.2

instance EntriesAlong.decidable (tmp : Value) (G : Nat → World → Addr → LuaValue × LuaValue → Prop)
    [∀ d w t e, Decidable (G d w t e)] (sub : Addr → World → Option (Outcome Addr × World))
    (subAlong : Addr → World → Prop) [∀ id w, Decidable (subAlong id w)] (d : Nat) (t : Addr) :
    ∀ (es : List (LuaValue × LuaValue)) (w : World), Decidable (EntriesAlong tmp G sub subAlong d t es w)
  | [], _ => isTrue trivial
  | e :: rest, w =>
      have : DecidablePred (EntriesAlong tmp G sub subAlong d t rest) :=
        EntriesAlong.decidable tmp G sub subAlong d t rest
      inferInstanceAs (Decidable (G d w t e ∧ (∀ id ∈ nestedTable e, subAlong id w)
        ∧ ∀ w' ∈ roundEnds tmp sub t e w, EntriesAlong tmp G sub subAlong d t rest w'))

instance ConvertAlong.decidable (tmp : Value) (heap : LuaHeap)
    (G : Nat → World → Addr → LuaValue × LuaValue → Prop) [∀ d w t e, Decidable (G d w t e)] :
    ∀ (fuel d : Nat) (id : Addr) (w : World), Decidable (ConvertAlong tmp heap G fuel d id w)
  | 0, _, _, _ => isTrue trivial
  | fuel + 1, d, id, w =>
      have : ∀ id w, Decidable (ConvertAlong tmp heap G fuel (d + 1) id w) :=
        ConvertAlong.decidable tmp heap G fuel (d + 1)
      inferInstanceAs (Decidable (∀ es ∈ heap id, ∀ x ∈ w.newTable,
        EntriesAlong tmp G (doConvert tmp heap fuel) (ConvertAlong tmp heap G fuel (d + 1)) d x.1 es x.2))

theorem nestedTable_table {id' : Addr} {gk : Key} (hk : getKey k = some (.ok gk)) :
    nestedTable (k, .table id') = some id' := by
  unfold nestedTable
  rw [hk]

theorem nestedTable_scalar (hv : ∀ id', v ≠ .table id') (k : LuaValue) : nestedTable (k, v) = none := by
  unfold nestedTable
  split
  next id' _ hid => exact absurd hid (hv id')
  next => rfl

theorem nestedTable_badKey {e : String} (hk : getKey k = some (.error e)) (v : LuaValue) :
    nestedTable (k, v) = none := by
  unfold nestedTable
  rw [hk]

section along

variable {G : Nat → World → Addr → LuaValue × LuaValue → Prop}
  {subL : Addr → World → Option (Outcome Addr × World)} {subAlong : Addr → World → Prop} {d : Nat}
  {w₁ w₂ : World} {gk : Key}

/-- An error of the round ends the loop. -/
theorem entriesAlong_badKey {e : String} (hk : getKey k = some (.error e)) :
    EntriesAlong tmp G subL subAlong d t ((k, v) :: rest) w ↔ G d w t (k, v) := by
  have hend : roundEnds tmp subL t (k, v) w = none := by
    unfold roundEnds
    rw [convertEntries_badKey hk]
  rw [EntriesAlong, nestedTable_badKey hk, hend]
  simp

theorem entriesAlong_refused {e : String} (hk : getKey k = some (.ok gk)) (hv : ∀ id', v ≠ .table id')
    (hset : w.setValue t gk v tmp = some (.error e, w₁)) :
    EntriesAlong tmp G subL subAlong d t ((k, v) :: rest) w ↔ G d w t (k, v) := by
  have hend : roundEnds tmp subL t (k, v) w = none := by
    unfold roundEnds
    rw [convertEntries_scalar hk hv, hset]
    rfl
  rw [EntriesAlong, nestedTable_scalar hv, hend]
  simp

/-- Otherwise it goes on behind a value that is no table, -/
theorem entriesAlong_scalar {u : Unit} (hk : getKey k = some (.ok gk)) (hv : ∀ id', v ≠ .table id')
    (hset : w.setValue t gk v tmp = some (.ok u, w₁)) :
    EntriesAlong tmp G subL subAlong d t ((k, v) :: rest) w
      ↔ G d w t (k, v) ∧ EntriesAlong tmp G subL subAlong d t rest w₁ := by
  have hend : roundEnds tmp subL t (k, v) w = some w₁ := by
    unfold roundEnds
    rw [convertEntries_scalar hk hv, hset]
    rfl
  rw [EntriesAlong, nestedTable_scalar hv, hend]
  simp

/-- and behind a nested table whose conversion raised no error. -/
theorem entriesAlong_table {id' s : Addr} {r : Int} (hk : getKey k = some (.ok gk))
    (hcall : subL id' w = some (.ok s, w₁)) (hset : w₁.setUd t gk tmp s = some (r, w₂)) :
    EntriesAlong tmp G subL subAlong d t ((k, .table id') :: rest) w
      ↔ G d w t (k, .table id') ∧ subAlong id' w ∧ EntriesAlong tmp G subL subAlong d t rest w₂ := by
  have hend : roundEnds tmp subL t (k, .table id') w = some w₂ := by
    unfold roundEnds
    rw [convertEntries_table hk, hcall, Option.bind_some]
    simp only [hset, Option.bind_some]
    rfl
  rw [EntriesAlong, nestedTable_table hk, hend]
  simp

theorem entriesAlong_tableError {id' : Addr} {e : String} (hk : getKey k = some (.ok gk))
    (hcall : subL id' w = some (.error e, w₁)) :
    EntriesAlong tmp G subL subAlong d t ((k, .table id') :: rest) w
      ↔ G d w t (k, .table id') ∧ subAlong id' w := by
  have hend : roundEnds tmp subL t (k, .table id') w = none := by
    unfold roundEnds
    rw [convertEntries_table hk, hcall]
    rfl
  rw [EntriesAlong, nestedTable_table hk, hend]
  simp

end along

end LightTable
