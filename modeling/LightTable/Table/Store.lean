/-
  LightTable.Table.Store
  ──────────────────────
  What a table is for: a finite map from keys to typed values.

  `Store` is that map and `Store.set` what a setter is meant to do to it: a key
  keeps the type of its first value, and a call with another type gives 1 and
  changes nothing.  `World.Stored` and `World.ReadsAs` say when a word of
  memory, and a table, show a value of the store.
-/
import LightTable.Table.Steps

namespace LightTable

/-! ## §1. The store. -/

/-- A finite map from keys to the values a setter takes. -/
abbrev Store := Key → Option Arg

/-- The store of a fresh table. -/
def Store.empty : Store := fun _ => none

/-- The store with `a` under `key`. -/
def Store.put (s : Store) (key : Key) (a : Arg) : Store := Function.update s key (some a)

/-- The key is absent or holds a value of the type the call writes. -/
def Store.Accepts (s : Store) (c : SetCall) : Prop :=
  ∀ a, s c.key = some a → a.type = c.arg.type

/-- What a setter is meant to do. -/
def Store.set (s : Store) (c : SetCall) : Int × Store :=
  match s c.key with
  | some a => if a.type = c.arg.type then (0, s.put c.key c.arg) else (1, s)
  | none => (0, s.put c.key c.arg)

theorem Store.set_of_accepts {s : Store} {c : SetCall} (h : s.Accepts c) :
    s.set c = (0, s.put c.key c.arg) := by
  unfold Store.set
  cases hs : s c.key with
  | none => rfl
  | some a => simp [h a hs]

theorem Store.put_self (s : Store) (key : Key) (a : Arg) : s.put key a key = some a :=
  Function.update_self ..

theorem Store.put_ne (s : Store) {key key' : Key} (h : key' ≠ key) (a : Arg) :
    s.put key a key' = s key' := Function.update_of_ne h ..

/-! ## §2. Sequences of calls. -/

/-- The argument of the last call on `key`. -/
def lastSet (calls : List SetCall) (key : Key) : Option Arg :=
  (calls.reverse.find? (fun c => decide (c.key = key))).map SetCall.arg

/-- Calls on one key all write one type. -/
def Consistent (calls : List SetCall) : Prop :=
  calls.Pairwise (fun c c' => c.key = c'.key → c.arg.type = c'.arg.type)

instance (calls : List SetCall) : Decidable (Consistent calls) :=
  inferInstanceAs (Decidable (List.Pairwise _ calls))

theorem lastSet_nil : lastSet [] = Store.empty := rfl

theorem lastSet_snoc (calls : List SetCall) (c : SetCall) :
    lastSet (calls ++ [c]) = Store.put (lastSet calls) c.key c.arg := by
  funext key
  unfold lastSet Store.put
  rw [List.reverse_append, Function.update_apply]
  by_cases h : key = c.key
  · simp [h]
  · simp [h, Ne.symm h]

/-- The last argument of a key comes from a call on it. -/
theorem lastSet_mem {calls : List SetCall} {key : Key} {a : Arg}
    (h : lastSet calls key = some a) : ∃ c ∈ calls, c.key = key ∧ c.arg = a := by
  obtain ⟨c, hc, rfl⟩ := Option.map_eq_some_iff.mp h
  exact ⟨c, List.mem_reverse.mp (List.mem_of_find?_eq_some hc), by simpa using List.find?_some hc,
    rfl⟩

theorem lastSet_eq_none {calls : List SetCall} {key : Key} :
    lastSet calls key = none ↔ ∀ c ∈ calls, c.key ≠ key := by
  simp [lastSet]

/-- In a consistent sequence every call finds a key of its own type. -/
theorem Consistent.accepts {calls : List SetCall} {c : SetCall}
    (h : Consistent (calls ++ [c])) : Store.Accepts (lastSet calls) c := by
  intro a ha
  obtain ⟨c', hc', hk, rfl⟩ := lastSet_mem ha
  exact (List.pairwise_append.mp h).2.2 c' hc' c (by simp) hk

/-! ## §3. Values in memory. -/

/-- The tag and the union `tv` hold the value `a`; a string is held through an
lstring and a slot of its own bytes. -/
def World.Stored (w : World) : Arg → LType × Word → Prop
  | .number n, tv => tv = (.number, n)
  | .boolean b, tv => tv.1 = .boolean ∧ Word.b tv.2 = b
  | .ud u, tv => tv = (.ud, u)
  | .string str, tv => tv.1 = .string
      ∧ ∃ slot, w.lstrings tv.2 = some ⟨slot⟩ ∧ w.slots slot = some (LightTable.newString str)

theorem World.Stored.type {w : World} {a : Arg} {tv : LType × Word} (h : w.Stored a tv) :
    tv.1 = a.type := by
  cases a with
  | number n => exact congrArg Prod.fst h
  | boolean b => exact h.1
  | ud u => exact congrArg Prod.fst h
  | string str => exact h.1

/-- A value that is no string is held by its word alone. -/
theorem World.Stored.congr {w : World} {a : Arg} {tv : LType × Word} (h : w.Stored a tv)
    {w' : World}
    (hw : ∀ slot, tv.1 = .string → w.lstrings tv.2 = some ⟨slot⟩ →
      w'.lstrings tv.2 = some ⟨slot⟩ ∧ w'.slots slot = w.slots slot) :
    w'.Stored a tv := by
  cases a with
  | number n => exact h
  | boolean b => exact h
  | ud u => exact h
  | string str =>
    obtain ⟨hty, slot, hls, hsl⟩ := h
    obtain ⟨hls', hsl'⟩ := hw slot hty hls
    exact ⟨hty, slot, hls', hsl'.trans hsl⟩

/-! ## §4. What the getters show. -/

/-- Every reader shows `a` under `key`: `get_type` its type and the matching
getter its value; `LT_NIL` when there is no value. -/
def World.ReadsAs (w : World) (t : Addr) (key : Key) : Option Arg → Prop
  | none => ∀ tmp, ∃ v, w.getType t key tmp = some ((.nil, v), w)
  | some a => ∀ tmp, (∃ v, w.getType t key tmp = some ((a.type, v), w)) ∧
      match a with
      | .number n => w.getNumber t key tmp = some (n, w)
      | .boolean b => w.getBoolean t key tmp = some (b, w)
      | .ud u => w.getUd t key tmp = some (u, w)
      | .string str => ∃ p, w.getString t key tmp = some (p, w) ∧ w.atPtr p = some (str ++ [0])

/-- The current map of a table. -/
def World.current (w : World) (t : Addr) : Option LMap := do
  let tb ← w.tables t
  tb.maps tb.map

theorem World.Owns.current {w : World} {t : Addr} {tb : Table} {m : LMap} (h : w.Owns t tb m) :
    w.current t = some m := by
  unfold World.current
  simp [h.table, h.map]

/-- The bucket count a setter call leads to, before it is narrowed to an
`int`: a `set_string` that finds its key does not insert. -/
def World.bucketsAsked (w : World) (t : Addr) (c : SetCall) : Int :=
  match w.current t with
  | none => 0
  | some m =>
      if c.arg.type = .string ∧ m.typeAt c.key ≠ .nil then m.size
      else grownSize m.size (m.depth c.key)

/-- The bucket count stays below 2^31 during the calls. -/
def World.StaysSmall (w : World) (t : Addr) (calls : List SetCall) : Prop :=
  Run.Along (fun w c => World.set w t c) (fun w c => w.bucketsAsked t c < 2147483648) w calls

instance (w : World) (t : Addr) (calls : List SetCall) : Decidable (w.StaysSmall t calls) :=
  inferInstanceAs (Decidable (Run.Along _ _ w calls))

end LightTable
