/-
  LightTable.Lua.Def
  ──────────────────
  The Lua binding of `ltlua.cpp`, function by function.

  A Lua number is the word of a double.  A function that can raise a Lua error
  gives an `Outcome`; the error leaves the world as the C code left it.
  `none` is undefined behaviour, as in `LightTable.Table.Def`; converting a
  number outside the 64-bit signed range to an integer is one case of it.
-/
import LightTable.Table.Def
import LightTable.Lib.Binary64

namespace LightTable

/-! ## §1. Lua values. -/

/-- A Lua value.  A Lua table is known by its identity. -/
inductive LuaValue where
  | nil
  | boolean (b : Bool)
  | lightuserdata (p : Word)
  | number (n : Word)
  | string (s : Bytes)
  | table (id : Addr)
  | function
  | userdata
  | thread
  deriving DecidableEq

/-- `lua_typename`. -/
def LuaValue.typename : LuaValue → String
  | .nil => "nil"
  | .boolean _ => "boolean"
  | .lightuserdata _ => "userdata"
  | .number _ => "number"
  | .string _ => "string"
  | .table _ => "table"
  | .function => "function"
  | .userdata => "userdata"
  | .thread => "thread"

/-- A result, or a Lua error with its message. -/
inductive Outcome (α : Type) where
  | ok (a : α)
  | error (msg : String)
  deriving DecidableEq

/-- `lua_tointeger` of a number. -/
def luaToInteger (n : Word) : Option Int := Binary64.truncate n

/-- What `%s` prints of a C string: the bytes before the first NUL. -/
def cString (s : Bytes) : String :=
  String.ofList ((s.takeWhile (fun c => c != 0)).map (fun c => Char.ofNat c.toNat))

/-! ## §2. Reading. -/

/-- `_get_value`: push the value that a type and a union stand for. -/
def World.getValue (w : World) (ttype : LType) (tv : Word) : Option (Outcome LuaValue × World) :=
  match ttype with
  | .nil => some (.ok .nil, w)
  | .number => some (.ok (.number tv), w)
  | .boolean => some (.ok (.boolean (Word.b tv != 0)), w)
  | .ud => some (.ok (.lightuserdata tv), w)
  | .string => do
      let (s, w) ← w.valueString tv
      return (.ok (.string s), w)

/-- `_get`, the metamethod `__index`: a number is looked up one below.  A key
of any other type leaves `ttype` and `tv` uninitialised. -/
def World.luaGet (w : World) (t : Addr) (k : LuaValue) (tmp : Value) :
    Option (Outcome LuaValue × World) :=
  match k with
  | .number n => do
      let i ← luaToInteger n
      let idx := asInt i
      if idx ≤ 0 then return (.error s!"Unsupported index {idx}", w)
      else
        let ((ttype, tv), w) ← w.getType t (.num (UInt64.ofNat (asSize (idx - 1)))) tmp
        w.getValue ttype tv
  | .string s => do
      let ((ttype, tv), w) ← w.getType t (.str s) tmp
      w.getValue ttype tv
  | _ => none

/-! ## §3. Writing. -/

/-- `_get_key`.  The test `sz < 0` is on a `size_t` and never holds. -/
def getKey (k : LuaValue) : Option (Outcome Key) :=
  match k with
  | .number n => do
      let sz ← luaToInteger n
      return .ok (.num (UInt64.ofNat (asSize sz)))
  | .string s => some (.ok (.str s))
  | k => some (.error s!"Unsupported key type {k.typename}")

/-- The message of `_error`. -/
def errorText (key : Key) (type : String) : String :=
  match key with
  | .num idx => s!"Can't set {asInt idx.toNat} with type {type}"
  | .str s => s!"Can't set {cString s} with type {type}"

/-- The setter and the argument `_set_value` picks for a value. -/
def LuaValue.arg : LuaValue → Option Arg
  | .number n => some (.number n)
  | .boolean b => some (.boolean (if b then 1 else 0))
  | .string s => some (.string s)
  | .lightuserdata p => some (.ud p)
  | _ => none

/-- `_set_value`. -/
def World.setValue (w : World) (t : Addr) (key : Key) (v : LuaValue) (tmp : Value) :
    Option (Outcome Unit × World) :=
  match v.arg with
  | none => some (.error s!"Unsupported value type {v.typename}", w)
  | some arg => do
      let (ret, w) ← w.set t ⟨key, arg, tmp⟩
      if ret ≠ 0 then return (.error (errorText key v.typename), w) else return (.ok (), w)

/-- `_set`, the metamethod `__newindex`. -/
def World.luaSet (w : World) (t : Addr) (k v : LuaValue) (tmp : Value) :
    Option (Outcome Unit × World) := do
  match ← getKey k with
  | .error e => return (.error e, w)
  | .ok key => w.setValue t key v tmp

/-! ## §4. Traversal. -/

/-- `_ipairsaux`, for the control variable the last call gave; the end of the
loop is `none`.  The increment of the largest `int` is undefined. -/
def World.ipairsaux (w : World) (t : Addr) (control : Word) (tmp : Value) :
    Option (Outcome (Option (LuaValue × LuaValue)) × World) := do
  let n ← luaToInteger control
  let i := asInt n
  if i = 2147483647 then none
  else
    let ((ttype, tv), w) ← w.getType t (.num (UInt64.ofNat (asSize (i + 1)))) tmp
    match ← w.getValue ttype tv with
    | (.error e, w) => return (.error e, w)
    | (.ok .nil, w) => return (.ok none, w)
    | (.ok v, w) => return (.ok (some (.number (Binary64.ofInt (i + 1)), v)), w)

/-- The upvalues of the closure that `_pairs` pushes; the array part is
always empty. -/
structure PairsState where
  mapSize : Int
  position : Int
  keys : List TableKey

/-- `_pairs`. -/
def World.luaPairs (w : World) (t : Addr) : Option (PairsState × World) := do
  let (cap, w) ← w.size t
  let (keys, w) ← w.keys t cap
  return ({ mapSize := asInt keys.length, position := 0, keys := keys }, w)

/-- `_next_map`; the end of the traversal is `none`. -/
def World.nextMap (w : World) (t : Addr) (st : PairsState) (tmp : Value) :
    Option (Outcome (Option (LuaValue × LuaValue)) × PairsState × World) :=
  if st.mapSize = 0 then some (.ok none, st, w)
  else if st.mapSize ≤ st.position then some (.ok none, { st with position := 0 }, w)
  else do
    let r ← st.keys[st.position.toNat]?
    let key ← r.toKey
    let name := match key with
      | .str s => LuaValue.string s
      | .num _ => LuaValue.number (Binary64.ofNat r.szIdx)
    let ((ttype, tv), w) ← w.getType t key tmp
    match ← w.getValue ttype tv with
    | (.error e, w) => return (.error e, { st with position := st.position + 1 }, w)
    | (.ok v, w) => return (.ok (some (name, v)), { st with position := st.position + 1 }, w)

/-- `_pairsaux`. -/
def World.pairsaux (w : World) (t : Addr) (st : PairsState) (control : LuaValue) (tmp : Value) :
    Option (Outcome (Option (LuaValue × LuaValue)) × PairsState × World) :=
  match control with
  | .nil => w.nextMap t st tmp
  | .number _ => w.nextMap t st tmp
  | .string _ => w.nextMap t st tmp
  | _ => some (.error "Invalid next key", st, w)

/-- The generic `for` over a traversal, at most `fuel` rounds; gives the pairs
its body saw. -/
def World.pairsLoop (tmp : Value) : Nat → World → Addr → PairsState → LuaValue →
    Option (Outcome (List (LuaValue × LuaValue)) × World)
  | 0, _, _, _, _ => none
  | fuel + 1, w, t, st, control => do
      match ← w.pairsaux t st control tmp with
      | (.error e, _, w) => return (.error e, w)
      | (.ok none, _, w) => return (.ok [], w)
      | (.ok (some p), st, w) =>
          match ← World.pairsLoop tmp fuel w t st p.1 with
          | (.error e, w) => return (.error e, w)
          | (.ok ps, w) => return (.ok (p :: ps), w)

/-- `for k, v in lighttable.pairs(t)` with an empty body. -/
def World.pairsAll (w : World) (t : Addr) (tmp : Value) :
    Option (Outcome (List (LuaValue × LuaValue)) × World) := do
  let (st, w) ← w.luaPairs t
  World.pairsLoop tmp (st.keys.length + 1) w t st .nil

/-! ## §5. Conversion. -/

/-- The Lua tables, each as the entries in the order of `lua_next`. -/
abbrev LuaHeap := Addr → Option (List (LuaValue × LuaValue))

/-- The loop of `do_convert`; `sub` converts a nested table.  The return code
of `set_ud` is ignored. -/
def convertEntries (tmp : Value) (sub : Addr → World → Option (Outcome Addr × World)) (t : Addr) :
    List (LuaValue × LuaValue) → World → Option (Outcome Unit × World)
  | [], w => some (.ok (), w)
  | (k, v) :: rest, w => do
      match ← getKey k with
      | .error e => return (.error e, w)
      | .ok key =>
          match v with
          | .table id =>
              match ← sub id w with
              | (.error e, w) => return (.error e, w)
              | (.ok s, w) =>
                  let (_, w) ← w.setUd t key tmp s
                  convertEntries tmp sub t rest w
          | v =>
              match ← w.setValue t key v tmp with
              | (.error e, w) => return (.error e, w)
              | (.ok (), w) => convertEntries tmp sub t rest w

/-- `do_convert`, for tables nested at most `fuel` deep. -/
def doConvert (tmp : Value) (heap : LuaHeap) : Nat → Addr → World → Option (Outcome Addr × World)
  | 0, _, _ => none
  | fuel + 1, src, w => do
      let entries ← heap src
      let (t, w) ← w.newTable
      match ← convertEntries tmp (doConvert tmp heap fuel) t entries w with
      | (.error e, w) => return (.error e, w)
      | (.ok (), w) => return (.ok t, w)

/-! ## §6. The equations of a call. -/

variable {heap : LuaHeap} {k v : LuaValue} {key : Key} {arg : Arg} {tmp : Value} {w w' : World}
  {t id : Addr} {o : Outcome Unit}

/-- A supported value is no table. -/
theorem LuaValue.not_table_of_arg (h : v.arg = some arg) : ∀ id, v ≠ .table id := by
  rintro id rfl
  cases h

/-- `_set_value` on a supported value is a setter call. -/
theorem World.setValue_arg (hv : v.arg = some arg) (w : World) (t : Addr) (key : Key)
    (tmp : Value) :
    w.setValue t key v tmp = (w.set t ⟨key, arg, tmp⟩).map (fun r =>
      (if r.1 ≠ 0 then .error (errorText key v.typename) else .ok (), r.2)) := by
  unfold World.setValue
  rw [hv]
  show (w.set t ⟨key, arg, tmp⟩).bind _ = _
  cases w.set t ⟨key, arg, tmp⟩ with
  | none => rfl
  | some r =>
    show (if r.1 ≠ 0 then _ else _) = _
    by_cases hr : r.1 = 0
    · simp [hr]
    · simp [hr]

/-- It is a setter call, or no call at all. -/
theorem World.setValue_cases (hx : w.setValue t key v tmp = some (o, w')) :
    (v.arg = none ∧ w' = w ∧ ∃ e, o = .error e) ∨ ∃ arg r, v.arg = some arg
      ∧ w.set t ⟨key, arg, tmp⟩ = some (r, w') ∧ (o = .ok () ↔ r = 0) := by
  cases hv : v.arg with
  | none =>
    unfold World.setValue at hx
    rw [hv, Option.some.injEq, Prod.mk.injEq] at hx
    exact Or.inl ⟨rfl, hx.2.symm, _, hx.1.symm⟩
  | some arg =>
    rw [World.setValue_arg hv] at hx
    obtain ⟨⟨r, w₁⟩, hset, hx⟩ := Option.map_eq_some_iff.mp hx
    simp only [Prod.mk.injEq] at hx
    obtain ⟨rfl, rfl⟩ := hx
    refine Or.inr ⟨arg, r, rfl, hset, ?_⟩
    by_cases hr : r = 0
    · simp [hr]
    · simp [hr]

/-- `_set` under a key that `_get_key` takes. -/
theorem World.luaSet_key (hk : getKey k = some (.ok key)) (w : World) (t : Addr) (v : LuaValue)
    (tmp : Value) : w.luaSet t k v tmp = w.setValue t key v tmp := by
  unfold World.luaSet
  rw [hk]
  rfl

/-- A successful `_set` is a successful setter call. -/
theorem World.of_luaSet (h : w.luaSet t k v tmp = some (.ok (), w')) :
    ∃ key arg, getKey k = some (.ok key) ∧ v.arg = some arg
      ∧ w.set t ⟨key, arg, tmp⟩ = some (0, w') := by
  obtain ⟨o, hk, -⟩ := Option.bind_eq_some_iff.mp h
  cases o with
  | error e =>
    unfold World.luaSet at h
    rw [hk] at h
    exact absurd (congrArg Prod.fst (Option.some.inj h)) (by simp)
  | ok key =>
    rw [World.luaSet_key hk] at h
    rcases World.setValue_cases h with ⟨-, -, e, he⟩ | ⟨arg, r, hv, hset, hr⟩
    · exact absurd he (by simp)
    · rw [hr.mp rfl] at hset
      exact ⟨key, arg, hk, hv, hset⟩

variable {sub : Addr → World → Option (Outcome Addr × World)} {rest : List (LuaValue × LuaValue)}

/-- A list round on a nested table. -/
theorem convertEntries_table (hk : getKey k = some (.ok key)) :
    convertEntries tmp sub t ((k, .table id) :: rest) w
      = (sub id w).bind fun x => match x.1 with
          | .error e => some (.error e, x.2)
          | .ok s => (x.2.setUd t key tmp s).bind fun y => convertEntries tmp sub t rest y.2 := by
  rw [convertEntries, hk]
  simp only [Option.bind_eq_bind, Option.bind_some]
  refine congrArg _ (funext fun x => ?_)
  obtain ⟨o, w₁⟩ := x
  cases o <;> rfl

/-- A list round on any other value. -/
theorem convertEntries_scalar (hk : getKey k = some (.ok key)) (hv : ∀ id, v ≠ .table id) :
    convertEntries tmp sub t ((k, v) :: rest) w
      = (w.setValue t key v tmp).bind fun x => match x.1 with
          | .error e => some (.error e, x.2)
          | .ok _ => convertEntries tmp sub t rest x.2 := by
  rw [convertEntries, hk]
  simp only [Option.bind_eq_bind, Option.bind_some]
  cases v with
  | table id => exact absurd rfl (hv id)
  | _ =>
      refine congrArg _ (funext fun x => ?_)
      obtain ⟨o, w₁⟩ := x
      cases o <;> rfl

/-- A list round on a key of an unsupported type. -/
theorem convertEntries_badKey {e : String} (hk : getKey k = some (.error e)) :
    convertEntries tmp sub t ((k, v) :: rest) w = some (.error e, w) := by
  rw [convertEntries, hk]
  rfl

theorem convertEntries_noKey (hk : getKey k = none) :
    convertEntries tmp sub t ((k, v) :: rest) w = none := by
  rw [convertEntries, hk]
  rfl

end LightTable
