/-
  LightTable.Lua.Stack
  ────────────────────
  `do_convert` on the Lua stack.

  `LightTable.Lua.Def` takes the entries of a Lua table as a list.  Here they
  come one by one from `lua_next`, through the stack of the running C function
  and the relative indices of the source, and the greatest height of that stack
  is kept.  The loop rounds (`convertLoop_end`, `convertLoop_round`) say what
  each round finds and leaves; by them the stack program computes what the list
  program does and gives the stack back as it was (`doConvert_refines`).
-/
import LightTable.Lua.Def
import LightTable.Lib.Fuel

namespace LightTable

open Fuel

/-! ## §1. The stack of a C function. -/

/-- The values of the running C function, its arguments included, top first;
and the greatest number of them so far. -/
structure LuaStack where
  values : List LuaValue
  peak : Nat
  deriving DecidableEq

/-- `luaD_precall`: a C function starts with its arguments. -/
def LuaStack.enter (args : List LuaValue) : LuaStack := { values := args, peak := args.length }

/-- What every `lua_push…` does. -/
def LuaStack.push (st : LuaStack) (v : LuaValue) : LuaStack :=
  { values := v :: st.values, peak := max st.peak (st.values.length + 1) }

/-- The value at index `-i`. -/
def LuaStack.index (st : LuaStack) (i : Nat) : Option LuaValue := st.values[i - 1]?

/-- `lua_pushvalue(L, -i)`. -/
def LuaStack.pushvalue (st : LuaStack) (i : Nat) : Option LuaStack := (st.index i).map st.push

/-- `lua_pop(L, n)`. -/
def LuaStack.pop (st : LuaStack) (n : Nat) : LuaStack := { st with values := st.values.drop n }

theorem LuaStack.pop_three {st : LuaStack} {a b c : LuaValue} {below : List LuaValue}
    (h : st.values = a :: b :: c :: below) : st.pop 3 = ⟨below, st.peak⟩ := by
  unfold LuaStack.pop
  rw [h]
  rfl

/-- `luaL_error`: it pushes the position and the message and joins them.  The
pieces that a format is made of are pushed by Lua itself, which checks the
stack for them; they are not counted. -/
def LuaStack.error (st : LuaStack) : LuaStack :=
  { st with peak := max st.peak (st.values.length + 2) }

/-! ## §2. `lua_next`. -/

/-- The double is a zero. -/
def isZero (n : Word) : Bool := n % 9223372036854775808 = 0

/-- `luaO_rawequalObj`.  A NaN equals nothing and the two zeros are equal. -/
def rawequal : LuaValue → LuaValue → Bool
  | .number n, .number k =>
      decide (Binary64.exponent n ≠ 2047 ∨ Binary64.fraction n = 0)
        && (decide (n = k) || (isZero n && isZero k))
  | v, v' => decide (v = v')

/-- The entries behind the key, which must be one of the table's. -/
def entriesBehind (key : LuaValue) : List (LuaValue × LuaValue) → Option (List (LuaValue × LuaValue))
  | [] => none
  | e :: es => if rawequal e.1 key then some es else entriesBehind key es

/-- The entries that are still to come after `key`; `nil` starts. -/
def entriesAfter (es : List (LuaValue × LuaValue)) (key : LuaValue) :
    Option (List (LuaValue × LuaValue)) :=
  if key = .nil then some es else entriesBehind key es

/-- `lua_next(L, -2)`: takes the key from the top and pushes the next key with
its value, if there is one. -/
def LuaStack.next (heap : LuaHeap) (st : LuaStack) : Option (Outcome Bool × LuaStack) := do
  let key ← st.index 1
  match ← st.index 2 with
  | .table id =>
      let es ← heap id
      match entriesAfter es key with
      | none => return (.error "invalid key to 'next'", st.error)
      | some [] => return (.ok false, st.pop 1)
      | some (e :: _) => return (.ok true, ((st.pop 1).push e.1).push e.2)
  | _ => none

/-! ## §3. `do_convert`. -/

/-- The `while` loop of `do_convert`, at most `rounds` times; `sub` is the
recursive call, which finds its table on the top. -/
def LuaStack.convertLoop (tmp : Value) (heap : LuaHeap)
    (sub : LuaStack → World → Result (Outcome Addr × LuaStack × World)) (t : Addr) :
    Nat → LuaStack → World → Result (Outcome Unit × LuaStack × World)
  | 0, _, _ => .out
  | rounds + 1, st, w =>
      (Result.ofOption (st.next heap)).bind fun (more, st) =>
        match more with
        | .error e => .ok (.error e, st, w)
        | .ok false => .ok (.ok (), st, w)
        | .ok true =>
            (Result.ofOption (st.pushvalue 2)).bind fun st =>
            (Result.ofOption (st.index 2)).bind fun value =>
            (Result.ofOption ((st.index 1).bind getKey)).bind fun key =>
              match key, value with
              | .error e, _ => .ok (.error e, st.error, w)
              | .ok key, .table _ =>
                  (Result.ofOption (st.pushvalue 2)).bind fun st =>
                  (sub st w).bind fun (s, st, w) =>
                    match s with
                    | .error e => .ok (.error e, st, w)
                    | .ok s =>
                        -- the return code of `set_ud` is not looked at
                        (Result.ofOption (w.setUd t key tmp s)).bind fun (_, w) =>
                          LuaStack.convertLoop tmp heap sub t rounds (st.pop 3) w
              | .ok key, _ =>
                  (Result.ofOption ((st.index 2).bind fun v => w.setValue t key v tmp)).bind
                    fun (o, w) =>
                    match o with
                    | .error e => .ok (.error e, st.error, w)
                    | .ok () => LuaStack.convertLoop tmp heap sub t rounds (st.pop 2) w

/-- One round for each entry of the table on the top, and one to find the
end. -/
def LuaStack.rounds (heap : LuaHeap) (st : LuaStack) : Nat :=
  match st.index 1 with
  | some (.table id) => ((heap id).getD []).length + 1
  | _ => 1

/-- `do_convert`, for tables nested at most `fuel` deep. -/
def LuaStack.doConvert (tmp : Value) (heap : LuaHeap) :
    Nat → LuaStack → World → Result (Outcome Addr × LuaStack × World)
  | 0, _, _ => .out
  | fuel + 1, st, w =>
      (Result.ofOption w.newTable).bind fun (t, w) =>
      (LuaStack.convertLoop tmp heap (LuaStack.doConvert tmp heap fuel) t (st.rounds heap)
          (st.push .nil) w).bind fun (o, st, w) =>
        match o with
        | .error e => .ok (.error e, st, w)
        | .ok () => .ok (.ok t, st, w)

/-- `_convert`: `lighttable.convert` of the value on the top. -/
def LuaStack.convert (tmp : Value) (heap : LuaHeap) (fuel : Nat) (args : List LuaValue) (w : World) :
    Result (Outcome LuaValue × LuaStack × World) :=
  (LuaStack.doConvert tmp heap fuel (.enter args) w).bind fun (o, st, w) =>
    match o with
    | .error e => .ok (.error e, st, w)
    | .ok t => .ok (.ok (.lightuserdata t), st.push (.lightuserdata t), w)

/-! ## §4. The order of `lua_next`. -/

/-- The keys of every Lua table: none is `nil` or NaN, and no two are equal. -/
def LuaHeap.Lawful (heap : LuaHeap) : Prop :=
  ∀ id es, heap id = some es → (∀ e ∈ es, e.1 ≠ .nil ∧ rawequal e.1 e.1 = true)
    ∧ es.Pairwise (fun e e' => rawequal e.1 e'.1 = false)

variable {heap : LuaHeap} {es rest : List (LuaValue × LuaValue)} {key k v : LuaValue}

theorem entriesBehind_suffix (h : entriesBehind key es = some rest) : rest <:+ es := by
  induction es with
  | nil => exact absurd h (by simp [entriesBehind])
  | cons e es ih =>
      unfold entriesBehind at h
      by_cases he : rawequal e.1 key = true
      · rw [if_pos he, Option.some.injEq] at h
        rw [← h]
        exact List.suffix_cons e es
      · rw [if_neg he] at h
        exact (ih h).trans (List.suffix_cons e es)

theorem entriesAfter_suffix (h : entriesAfter es key = some rest) : rest <:+ es := by
  unfold entriesAfter at h
  by_cases hk : key = .nil
  · rw [if_pos hk, Option.some.injEq] at h
    rw [h]
  · rw [if_neg hk] at h
    exact entriesBehind_suffix h

/-- The entries before one that has an equal key are passed over. -/
theorem entriesBehind_append (hk : rawequal k k = true) :
    ∀ (pre : List (LuaValue × LuaValue)), (∀ e ∈ pre, rawequal e.1 k = false) →
      entriesBehind k (pre ++ (k, v) :: rest) = some rest := by
  intro pre
  induction pre with
  | nil =>
      intro _
      show (if rawequal k k = true then some rest else entriesBehind k rest) = some rest
      rw [if_pos hk]
  | cons e pre ih =>
      intro hpre
      have he : ¬ rawequal e.1 k = true := by
        rw [hpre e List.mem_cons_self]
        exact Bool.false_ne_true
      show (if rawequal e.1 k = true then _ else entriesBehind k (pre ++ (k, v) :: rest)) = _
      rw [if_neg he]
      exact ih (fun e' he' => hpre e' (List.mem_cons_of_mem _ he'))

/-- The key of the entry that came last leads to the next one: every entry of
a table is visited once, in order. -/
theorem LuaHeap.Lawful.entriesAfter (h : heap.Lawful) {id : Addr} (hes : heap id = some es)
    (hr : entriesAfter es key = some ((k, v) :: rest)) : LightTable.entriesAfter es k = some rest := by
  obtain ⟨hkeys, hdistinct⟩ := h id es hes
  obtain ⟨pre, hpre⟩ := entriesAfter_suffix hr
  subst hpre
  obtain ⟨hnil, hself⟩ := hkeys (k, v) (by simp)
  unfold LightTable.entriesAfter
  rw [if_neg hnil]
  apply entriesBehind_append hself
  intro e he
  exact (List.pairwise_append.mp hdistinct).2.2 e he (k, v) List.mem_cons_self

/-! ## §5. What a round finds on the stack. -/

variable {tmp : Value} {sub : LuaStack → World → Result (Outcome Addr × LuaStack × World)}
  {t id : Addr} {n p : Nat} {below : List LuaValue} {w : World}

theorem LuaStack.next_entry (hes : heap id = some es) (hr : entriesAfter es key = some ((k, v) :: rest)) :
    LuaStack.next heap ⟨key :: .table id :: below, p⟩
      = some (.ok true, ⟨v :: k :: .table id :: below, max p (below.length + 3)⟩) := by
  have hpeak : max (max p (below.length + 1 + 1)) (below.length + 1 + 1 + 1)
      = max p (below.length + 3) := by omega
  show (heap id).bind _ = _
  rw [hes, Option.bind_some, hr]
  show some (_, (⟨_, _⟩ : LuaStack)) = _
  rw [← hpeak]
  rfl

/-- After the last entry `lua_next` takes the key and pushes nothing. -/
theorem LuaStack.convertLoop_end (hes : heap id = some es) (hr : entriesAfter es key = some []) :
    LuaStack.convertLoop tmp heap sub t (n + 1) ⟨key :: .table id :: below, p⟩ w
      = .ok (.ok (), ⟨.table id :: below, p⟩, w) := by
  have hnext : LuaStack.next heap ⟨key :: .table id :: below, p⟩
      = some (.ok false, ⟨.table id :: below, p⟩) := by
    show (heap id).bind _ = _
    rw [hes, Option.bind_some, hr]
    rfl
  unfold LuaStack.convertLoop
  rw [hnext]
  rfl

/-- The stack of a round, with the copy of the key on the top. -/
def LuaStack.inRound (k v : LuaValue) (id : Addr) (below : List LuaValue) (p : Nat) : LuaStack :=
  ⟨k :: v :: k :: .table id :: below, max p (below.length + 4)⟩

theorem LuaStack.pushvalue_key (k v : LuaValue) (id : Addr) (below : List LuaValue) (p : Nat) :
    LuaStack.pushvalue ⟨v :: k :: .table id :: below, max p (below.length + 3)⟩ 2
      = some (.inRound k v id below p) := by
  have hpeak : max (max p (below.length + 3)) (below.length + 1 + 1 + 1 + 1)
      = max p (below.length + 4) := by omega
  unfold LuaStack.inRound
  rw [← hpeak]
  rfl

/-- A nested call finds the value on the top of a copy of the entry. -/
theorem LuaStack.pushvalue_inRound (k v : LuaValue) (id : Addr) (below : List LuaValue) (p : Nat) :
    (LuaStack.inRound k v id below p).pushvalue 2
      = some ⟨v :: k :: v :: k :: .table id :: below, max p (below.length + 5)⟩ := by
  have hpeak : max (max p (below.length + 4)) (below.length + 1 + 1 + 1 + 1 + 1)
      = max p (below.length + 5) := by omega
  rw [← hpeak]
  rfl

theorem LuaStack.error_inRound_peak (k v : LuaValue) (id : Addr) (below : List LuaValue) (p : Nat) :
    (LuaStack.inRound k v id below p).error.peak = max p (below.length + 6) := by
  show max (max p (below.length + 4)) (below.length + 1 + 1 + 1 + 1 + 2) = _
  omega

/-- A key of an unsupported type. -/
theorem LuaStack.convertLoop_badKey (hes : heap id = some es)
    (hr : entriesAfter es key = some ((k, v) :: rest)) {e : String} (hk : getKey k = some (.error e)) :
    LuaStack.convertLoop tmp heap sub t (n + 1) ⟨key :: .table id :: below, p⟩ w
      = .ok (.error e, (LuaStack.inRound k v id below p).error, w) := by
  rw [LuaStack.convertLoop, LuaStack.next_entry hes hr]
  simp only [Result.ofOption_some, Result.ok_bind]
  rw [LuaStack.pushvalue_key]
  show (Result.ofOption (getKey k)).bind _ = _
  rw [hk]
  rfl

/-- A number whose conversion is undefined. -/
theorem LuaStack.convertLoop_noKey (hes : heap id = some es)
    (hr : entriesAfter es key = some ((k, v) :: rest)) (hk : getKey k = none) :
    LuaStack.convertLoop tmp heap sub t (n + 1) ⟨key :: .table id :: below, p⟩ w = .stuck := by
  rw [LuaStack.convertLoop, LuaStack.next_entry hes hr]
  simp only [Result.ofOption_some, Result.ok_bind]
  rw [LuaStack.pushvalue_key]
  show (Result.ofOption (getKey k)).bind _ = _
  rw [hk]
  rfl

/-- A nested table. -/
theorem LuaStack.convertLoop_table {id' : Addr} (hes : heap id = some es)
    (hr : entriesAfter es key = some ((k, .table id') :: rest)) {gk : Key} (hk : getKey k = some (.ok gk)) :
    LuaStack.convertLoop tmp heap sub t (n + 1) ⟨key :: .table id :: below, p⟩ w
      = (sub ⟨.table id' :: k :: .table id' :: k :: .table id :: below, max p (below.length + 5)⟩ w).bind
          fun x => match x.1 with
            | .error e => .ok (.error e, x.2.1, x.2.2)
            | .ok s => (Result.ofOption (x.2.2.setUd t gk tmp s)).bind fun y =>
                LuaStack.convertLoop tmp heap sub t n (x.2.1.pop 3) y.2 := by
  rw [LuaStack.convertLoop, LuaStack.next_entry hes hr]
  simp only [Result.ofOption_some, Result.ok_bind]
  rw [LuaStack.pushvalue_key]
  show (Result.ofOption (getKey k)).bind _ = _
  rw [hk]
  simp only [Result.ofOption_some, Result.ok_bind]
  rw [LuaStack.pushvalue_inRound]
  rfl

/-- A value of another type goes to `_set_value`. -/
theorem LuaStack.convertLoop_scalar (hes : heap id = some es)
    (hr : entriesAfter es key = some ((k, v) :: rest)) {gk : Key} (hk : getKey k = some (.ok gk))
    (hv : ∀ id', v ≠ .table id') :
    LuaStack.convertLoop tmp heap sub t (n + 1) ⟨key :: .table id :: below, p⟩ w
      = (Result.ofOption (w.setValue t gk v tmp)).bind fun x => match x.1 with
          | .error e => .ok (.error e, (LuaStack.inRound k v id below p).error, x.2)
          | .ok _ => LuaStack.convertLoop tmp heap sub t n
              ⟨k :: .table id :: below, max p (below.length + 4)⟩ x.2 := by
  rw [LuaStack.convertLoop, LuaStack.next_entry hes hr]
  simp only [Result.ofOption_some, Result.ok_bind]
  rw [LuaStack.pushvalue_key]
  show (Result.ofOption (getKey k)).bind _ = _
  rw [hk]
  simp only [Result.ofOption_some, Result.ok_bind]
  have hset : ((LuaStack.inRound k v id below p).index 2).bind (fun v => w.setValue t gk v tmp)
      = w.setValue t gk v tmp := rfl
  rw [hset]
  cases v with
  | table id' => exact absurd rfl (hv id')
  | _ =>
      refine congrArg _ (funext fun x => ?_)
      obtain ⟨o, w₁⟩ := x
      cases o <;> rfl

/-! ## §6. The list program. -/

/-- The stack program ends as the list program does, and where it gives a value
it leaves the stack `values`. -/
structure LuaStack.Refines {α : Type} (values : List LuaValue)
    (r : Result (Outcome α × LuaStack × World)) (o : Option (Outcome α × World)) : Prop where
  ends : r.toOption.map (fun x => (x.1, x.2.2)) = o
  values : ∀ a st w', r = .ok (.ok a, st, w') → st.values = values

theorem LuaStack.refines_ok {α : Type} (a : α) (st : LuaStack) (w : World) :
    LuaStack.Refines st.values (.ok (.ok a, st, w)) (some (.ok a, w)) where
  ends := rfl
  values := by
    intro a' st' w' h
    cases h
    rfl

theorem LuaStack.refines_error {α : Type} {values : List LuaValue} (e : String) (st : LuaStack)
    (w : World) : LuaStack.Refines (α := α) values (.ok (.error e, st, w)) (some (.error e, w)) where
  ends := rfl
  values := by
    intro a st' w' h
    cases h

theorem LuaStack.refines_stuck {α : Type} {values : List LuaValue} :
    LuaStack.Refines (α := α) values .stuck none where
  ends := rfl
  values := by
    intro a st' w' h
    cases h

/-- The two programs go on alike. -/
theorem LuaStack.Refines.bind {α β : Type} {values values' : List LuaValue}
    {r : Result (Outcome α × LuaStack × World)} {o : Option (Outcome α × World)}
    (h : LuaStack.Refines values r o)
    {f : Outcome α × LuaStack × World → Result (Outcome β × LuaStack × World)}
    {g : Outcome α × World → Option (Outcome β × World)}
    (hfg : ∀ x st w', (∀ a, x = .ok a → st.values = values) →
      LuaStack.Refines values' (f (x, st, w')) (g (x, w'))) :
    LuaStack.Refines values' (r.bind f) (o.bind g) := by
  rw [← h.ends]
  cases hr : r with
  | out =>
      refine ⟨rfl, ?_⟩
      intro a st w' h
      cases h
  | stuck => exact LuaStack.refines_stuck
  | ok x =>
      obtain ⟨x, st, w'⟩ := x
      apply hfg x st w'
      intro a ha
      subst ha
      exact h.values a st w' hr

/-- A call at the top of a stack: `nil` is pushed above the table. -/
theorem LuaStack.doConvert_succ {fuel : Nat} {x : Addr × World} (hes : heap id = some es)
    (hnew : w.newTable = some x) :
    LuaStack.doConvert tmp heap (fuel + 1) ⟨.table id :: below, p⟩ w
      = (LuaStack.convertLoop tmp heap (LuaStack.doConvert tmp heap fuel) x.1 (es.length + 1)
          ⟨.nil :: .table id :: below, max p (below.length + 2)⟩ x.2).bind fun y => match y.1 with
          | .error e => .ok (.error e, y.2.1, y.2.2)
          | .ok _ => .ok (.ok x.1, y.2.1, y.2.2) := by
  have hrounds : LuaStack.rounds heap ⟨.table id :: below, p⟩ = es.length + 1 := by
    show ((heap id).getD []).length + 1 = _
    rw [hes]
    rfl
  rw [LuaStack.doConvert, hnew, hrounds]
  rfl

theorem LuaStack.doConvert_none {fuel : Nat} (hes : heap id = none) :
    LuaStack.doConvert tmp heap (fuel + 1) ⟨.table id :: below, p⟩ w = .stuck := by
  have hrounds : LuaStack.rounds heap ⟨.table id :: below, p⟩ = 0 + 1 := by
    show ((heap id).getD []).length + 1 = _
    rw [hes]
    rfl
  rw [LuaStack.doConvert, hrounds]
  cases w.newTable with
  | none => rfl
  | some x =>
      have hnext : LuaStack.next heap (LuaStack.push ⟨.table id :: below, p⟩ .nil) = none := by
        show (heap id).bind _ = _
        rw [hes]
        rfl
      rw [Result.ofOption_some, Result.ok_bind]
      unfold LuaStack.convertLoop
      rw [hnext]
      rfl

theorem doConvert_succ {fuel : Nat} {x : Addr × World} (hes : heap id = some es)
    (hnew : w.newTable = some x) :
    doConvert tmp heap (fuel + 1) id w
      = (convertEntries tmp (doConvert tmp heap fuel) x.1 es x.2).bind fun y => match y.1 with
          | .error e => some (.error e, y.2)
          | .ok _ => some (.ok x.1, y.2) := by
  rw [doConvert, hes, hnew]
  simp only [Option.bind_eq_bind, Option.bind_some]
  refine congrArg _ (funext fun y => ?_)
  obtain ⟨o, w₁⟩ := y
  cases o <;> rfl

theorem doConvert_none {fuel : Nat} (hes : heap id = none) :
    doConvert tmp heap (fuel + 1) id w = none := by
  rw [doConvert, hes]
  rfl

/-- The loop goes through the entries that are still to come. -/
theorem LuaStack.convertLoop_refines (hlawful : heap.Lawful) (hes : heap id = some es)
    {subL : Addr → World → Option (Outcome Addr × World)}
    (hsub : ∀ id' below p w, LuaStack.Refines (.table id' :: below)
      (sub ⟨.table id' :: below, p⟩ w) (subL id' w)) (rest : List (LuaValue × LuaValue)) :
    ∀ (key : LuaValue) (p : Nat) (w : World), entriesAfter es key = some rest →
      LuaStack.Refines (.table id :: below)
        (LuaStack.convertLoop tmp heap sub t (rest.length + 1) ⟨key :: .table id :: below, p⟩ w)
        (convertEntries tmp subL t rest w) := by
  induction rest with
  | nil =>
      intro key p w hr
      show LuaStack.Refines _ (LuaStack.convertLoop tmp heap sub t (0 + 1) _ w) _
      rw [LuaStack.convertLoop_end hes hr]
      exact LuaStack.refines_ok () ⟨.table id :: below, p⟩ w
  | cons e rest ih =>
      intro key p w hr
      obtain ⟨k, v⟩ := e
      have hnext := hlawful.entriesAfter hes hr
      show LuaStack.Refines _ (LuaStack.convertLoop tmp heap sub t (rest.length + 1 + 1) _ w) _
      cases hk : getKey k with
      | none =>
          rw [LuaStack.convertLoop_noKey hes hr hk, convertEntries_noKey hk]
          exact LuaStack.refines_stuck
      | some gk =>
          cases gk with
          | error err =>
              rw [LuaStack.convertLoop_badKey hes hr hk, convertEntries_badKey hk]
              exact LuaStack.refines_error err _ w
          | ok gk =>
              by_cases hv : ∃ id', v = .table id'
              · obtain ⟨id', rfl⟩ := hv
                rw [LuaStack.convertLoop_table hes hr hk, convertEntries_table hk]
                apply LuaStack.Refines.bind (hsub id' _ _ w)
                intro o st w₁ hvals
                cases o with
                | error err => exact LuaStack.refines_error err st w₁
                | ok s =>
                    show LuaStack.Refines _ ((Result.ofOption (w₁.setUd t gk tmp s)).bind _)
                      ((w₁.setUd t gk tmp s).bind _)
                    -- three pops take the two copies and the value
                    have hpop : st.pop 3 = ⟨k :: .table id :: below, st.peak⟩ :=
                      LuaStack.pop_three (hvals s rfl)
                    cases hset : w₁.setUd t gk tmp s with
                    | none => exact LuaStack.refines_stuck
                    | some y =>
                        rw [Result.ofOption_some, Result.ok_bind, Option.bind_some, hpop]
                        exact ih k st.peak y.2 hnext
              · have hv : ∀ id', v ≠ .table id' := fun id' h => hv ⟨id', h⟩
                rw [LuaStack.convertLoop_scalar hes hr hk hv, convertEntries_scalar hk hv]
                cases hset : w.setValue t gk v tmp with
                | none => exact LuaStack.refines_stuck
                | some x =>
                    obtain ⟨o, w₁⟩ := x
                    cases o with
                    | error err => exact LuaStack.refines_error err _ w₁
                    | ok u => exact ih k _ w₁ hnext

/-- `do_convert` on the stack is the list program, and gives the stack back as
it was. -/
theorem LuaStack.doConvert_refines (hlawful : heap.Lawful) (tmp : Value) (fuel : Nat) :
    ∀ (id : Addr) (below : List LuaValue) (p : Nat) (w : World),
      LuaStack.Refines (.table id :: below)
        (LuaStack.doConvert tmp heap fuel ⟨.table id :: below, p⟩ w)
        (LightTable.doConvert tmp heap fuel id w) := by
  induction fuel with
  | zero =>
      intro id below p w
      refine ⟨rfl, ?_⟩
      intro a st w' h
      cases h
  | succ fuel ih =>
      intro id below p w
      cases hes : heap id with
      | none =>
          -- the first `lua_next` finds no table
          rw [LuaStack.doConvert_none hes, LightTable.doConvert_none hes]
          exact LuaStack.refines_stuck
      | some es =>
          cases hnew : w.newTable with
          | none =>
              unfold LuaStack.doConvert LightTable.doConvert
              rw [hes, hnew]
              exact LuaStack.refines_stuck
          | some x =>
              rw [LuaStack.doConvert_succ hes hnew, LightTable.doConvert_succ hes hnew]
              apply LuaStack.Refines.bind (LuaStack.convertLoop_refines hlawful hes ih es .nil _ x.2 rfl)
              intro o st w₁ hvals
              cases o with
              | error err => exact LuaStack.refines_error err st w₁
              | ok u =>
                  rw [← hvals u rfl]
                  exact LuaStack.refines_ok x.1 st w₁

end LightTable
