/-
  LightTable.Table.Def
  ────────────────────
  The table of `lighttable.cpp`, function by function.

  A `World` is the memory of the process: the tables with their maps, the
  strings, and the log of what was freed.  Every function takes the world and
  gives it back; `none` is a failed assertion, an exception, or undefined
  behaviour (an access to an object that does not exist or was freed).

  Each locked region is one step, so the spin locks are left out.  A local
  `struct value tmp` is not initialised by the source: the functions that
  declare one take what it holds as the argument `tmp`.
-/
import LightTable.Map.Def
import LightTable.Lib.Run
import Mathlib.Logic.Function.Basic

namespace LightTable

/-! ## §1. A table and the maps it owns. -/

/-- A `class table`: its counter, the pointer `map`, and the `lmap` objects
that exist for it. -/
structure Table where
  ref : Int
  map : Addr
  maps : Addr → Option LMap

/-- Write the map object at `a`. -/
def Table.putMap (tb : Table) (a : Addr) (m : LMap) : Table :=
  { tb with maps := Function.update tb.maps a (some m) }

/-- The map object at `a` is gone. -/
def Table.dropMap (tb : Table) (a : Addr) : Table :=
  { tb with maps := Function.update tb.maps a none }

/-- `_grab_map`. -/
def Table.grabMap (tb : Table) : Option (Addr × Table) := do
  let m ← tb.maps tb.map
  let ref := asInt (m.ref + 1)
  -- assert(ref > 1)
  if 1 < ref then return (tb.map, tb.putMap tb.map { m with ref := ref }) else none

/-- `_release_map`.  The decremented count of `m` is written into the table's
current map (`map->_set_ref(ref)`), which need not be `m`.  Gives the map
object whose destructor runs next, if any. -/
def Table.releaseMap (tb : Table) (m : Addr) : Option (Option LMap × Table) := do
  let rel ← tb.maps m
  let ref := asInt (rel.ref - 1)
  let cur ← tb.maps tb.map
  let tb := tb.putMap tb.map { cur with ref := ref }
  if ref ≠ 0 then return (none, tb)
  else
    let dead ← tb.maps m
    return (some dead, tb.dropMap m)

/-- `_update_map`.  The decremented count of the old map stays in a local
variable. -/
def Table.updateMap (tb : Table) (m : Addr) : Option (Option LMap × Table) := do
  let old ← tb.maps tb.map
  let ref := asInt (old.ref - 1)
  if ref = 0 then return (some old, { tb.dropMap tb.map with map := m })
  else return (none, { tb with map := m })

/-! ## §2. The world, and freeing. -/

/-- The memory of the process.  `freed` lists what was given back to the
allocator, latest first, and `destroyed` the tables among it. -/
structure World where
  brk : Addr
  lstrings : Addr → Option LString
  slots : Addr → Option StringSlot
  tables : Addr → Option Table
  freed : List Addr
  destroyed : List Addr

/-- Nothing is allocated; address 0 is the null pointer. -/
def World.empty : World :=
  { brk := 1, lstrings := fun _ => none, slots := fun _ => none,
    tables := fun _ => none, freed := [], destroyed := [] }

/-- Write the table object at `t`. -/
def World.putTable (w : World) (t : Addr) (tb : Table) : World :=
  { w with tables := Function.update w.tables t (some tb) }

/-- Write the slot at `s`. -/
def World.putSlot (w : World) (s : Addr) (sl : StringSlot) : World :=
  { w with slots := Function.update w.slots s (some sl) }

/-- Write the lstring at `s`. -/
def World.putLString (w : World) (s : Addr) (ls : LString) : World :=
  { w with lstrings := Function.update w.lstrings s (some ls) }

/-- Give `a` back to the allocator. -/
def World.free (w : World) (a : Addr) : World := { w with freed := a :: w.freed }

/-- `free` or `delete` of a string slot. -/
def World.freeSlot (w : World) (s : Addr) : Option World := do
  let _ ← w.slots s
  return { w with slots := Function.update w.slots s none }.free s

/-- `free` of an lstring. -/
def World.freeLString (w : World) (s : Addr) : Option World := do
  let _ ← w.lstrings s
  return { w with lstrings := Function.update w.lstrings s none }.free s

/-! ## §3. Destructors.

`table::_release`, `~table`, `~lmap` and `_clear_value` call each other; the
parts below take the call to `_release` as the argument `release`, and the
recursion is closed in `releaseFuel`. -/

/-- `_clear_value`. -/
def clearValue (release : Addr → World → Option World) (v : Value) (w : World) :
    Option World :=
  match v.type with
  | .string => do
      let ls ← w.lstrings v.v
      let w ← w.freeSlot ls.slot
      w.freeLString v.v
  | .ud => release v.v w
  | _ => some w

/-- The loop body of `_delete_without_data`: the value is cleared only when
this node is its last user. -/
def deleteNode (release : Addr → World → Option World) (w : World) (n : Node) :
    Option World := do
  let w := match n.strkey with
    | some (a, _) => w.free a
    | none => w
  let w ← if n.v.ref = 1 then clearValue release n.v w else some w
  return w.free n.addr

/-- `_delete_without_data`, over the buckets `0 … size - 1`. -/
def deleteWithoutData (release : Addr → World → Option World) (m : LMap) (w : World) :
    Option World :=
  (m.data.take m.size.toNat).flatten.foldlM (deleteNode release) w

/-- `delete` of the map object `m` that lived at `a`. -/
def deleteMap (release : Addr → World → Option World) (a : Addr) (m : LMap) (w : World) :
    Option World := do
  let w ← deleteWithoutData release m w
  return w.free a

/-- `delete` of the table at `t`: the destructor resets the counter and
deletes the map; then the table object itself goes. -/
def deleteTable (release : Addr → World → Option World) (t : Addr) (w : World) :
    Option World := do
  let tb ← w.tables t
  let m ← tb.maps tb.map
  let w ← deleteMap release tb.map m (w.putTable t { tb.dropMap tb.map with ref := 0 })
  let _ ← w.tables t
  return { w with
    tables := Function.update w.tables t none, destroyed := t :: w.destroyed }.free t

/-- `table::_release`, with at most `fuel` nested destructors. -/
def releaseFuel : Nat → Addr → World → Option World
  | 0, _, _ => none
  | fuel + 1, t, w => do
      let tb ← w.tables t
      let ref := asInt (tb.ref - 1)
      let w := w.putTable t { tb with ref := ref }
      if ref ≠ 0 then return w else deleteTable (releaseFuel fuel) t w

/-- `table::_release`.  Nested destructors run on different tables, of which
there are fewer than addresses in use. -/
def World.release (w : World) (t : Addr) : Option World := releaseFuel w.brk t w

/-- `table::grab`. -/
def World.grab (w : World) (t : Addr) : Option World := do
  let tb ← w.tables t
  return w.putTable t { tb with ref := asInt (tb.ref + 1) }

/-- `table::getref`. -/
def World.getref (w : World) (t : Addr) : Option Int := (w.tables t).map Table.ref

/-- `lighttable.delete`, and any other `delete t`. -/
def World.delete (w : World) (t : Addr) : Option World :=
  deleteTable (releaseFuel w.brk) t w

/-! ## §4. The table's maps, in the world. -/

/-- `new table`. -/
def World.newTable (w : World) : Option (Addr × World) := do
  let mapSize ← nextPrime defaultSize
  let t := w.brk
  let m := w.brk + 1
  let tb : Table := { ref := 1, map := m, maps := fun _ => none }
  return (t, { w with brk := w.brk + 2 }.putTable t (tb.putMap m (LMap.new mapSize)))

/-- `_grab_map`. -/
def World.grabMap (w : World) (t : Addr) : Option (Addr × World) := do
  let tb ← w.tables t
  let (m, tb) ← tb.grabMap
  return (m, w.putTable t tb)

/-- Run the destructor of a map object that was just deleted. -/
def World.reap (w : World) (a : Addr) (dead : Option LMap) : Option World :=
  match dead with
  | some m => deleteMap (releaseFuel w.brk) a m w
  | none => some w

/-- `_release_map`. -/
def World.releaseMap (w : World) (t m : Addr) : Option World := do
  let tb ← w.tables t
  let (dead, tb) ← tb.releaseMap m
  (w.putTable t tb).reap m dead

/-- `_update_map`. -/
def World.updateMap (w : World) (t m : Addr) : Option World := do
  let tb ← w.tables t
  let (dead, tb') ← tb.updateMap m
  (w.putTable t tb').reap tb.map dead

/-! ## §5. Search. -/

/-- The loop of `_search_map`, at most `fuel` rounds. -/
def World.searchMapLoop : Nat → World → Addr → Key → Value → Option (Value × World)
  | 0, _, _, _, _ => none
  | fuel + 1, w, t, key, result => do
      let (m, w) ← w.grabMap t
      let tb ← w.tables t
      let lm ← tb.maps m
      let result ← lm.search key result
      let w ← w.releaseMap t m
      let tb ← w.tables t
      if m = tb.map then return (result, w)
      else World.searchMapLoop fuel w t key result

/-- `_search_map` run as one step: nobody replaces the map meanwhile, so one
round is enough. -/
def World.searchMap (w : World) (t : Addr) (key : Key) (result : Value) :
    Option (Value × World) :=
  w.searchMapLoop 1 t key result

/-- `_search_table`. -/
def World.searchTable (w : World) (t : Addr) (key : Key) (result : Value) :
    Option (Value × World) :=
  w.searchMap t key result

/-- `get_type`, with the union it copies out. -/
def World.getType (w : World) (t : Addr) (key : Key) (tmp : Value) :
    Option ((LType × Word) × World) := do
  let (tmp, w) ← w.searchTable t key tmp
  return ((tmp.type, tmp.v), w)

/-! ## §6. Strings. -/

/-- `new_string`. -/
def World.newString (w : World) (name : Bytes) : Addr × World :=
  (w.brk, { w with brk := w.brk + 1 }.putSlot w.brk (LightTable.newString name))

/-- The locked region of `_grab_string`. -/
def World.grabString (w : World) (s : Addr) : Option (Addr × World) := do
  let ls ← w.lstrings s
  let sl ← w.slots ls.slot
  let ref := asInt (sl.ref + 1)
  -- assert(ref > 1)
  if 1 < ref then return (ls.slot, w.putSlot ls.slot { sl with ref := ref }) else none

/-- The atomic decrement of `_release_string`. -/
def World.decSlot (w : World) (s : Addr) : Option (Int × World) := do
  let sl ← w.slots s
  let ref := asInt (sl.ref - 1)
  return (ref, w.putSlot s { sl with ref := ref })

/-- `_release_string`. -/
def World.releaseString (w : World) (s : Addr) : Option World := do
  let (ref, w) ← w.decSlot s
  if ref ≠ 0 then return w else w.freeSlot s

/-- The bytes `(s->buf, s->sz)` that `value_string` hands to its callback. -/
def World.readSlot (w : World) (s : Addr) : Option Bytes := do
  let sl ← w.slots s
  readBytes sl.buf (asSize sl.sz)

/-- `value_string`, with the bytes its callback is given. -/
def World.valueString (w : World) (v : Word) : Option (Bytes × World) := do
  let (s, w) ← w.grabString v
  let bytes ← w.readSlot s
  let w ← w.releaseString s
  return (bytes, w)

/-- The locked region of `_update_string`: gives the old slot and its
decremented count. -/
def World.swapSlot (w : World) (str ns : Addr) : Option ((Addr × Int) × World) := do
  let ls ← w.lstrings str
  let w := w.putLString str { ls with slot := ns }
  let (ref, w) ← w.decSlot ls.slot
  return ((ls.slot, ref), w)

/-- `_update_string`. -/
def World.updateString (w : World) (str : Addr) (ustr : Bytes) : Option World := do
  let (ns, w) := w.newString ustr
  let ((old, ref), w) ← w.swapSlot str ns
  if ref = 0 then w.freeSlot old else return w

/-! ## §7. Insert. -/

/-- `_expand_hash`.  `new struct node *[n]` throws when the array would
exceed the address space, which a negative `new_size` asks for. -/
def World.expandHash (w : World) (t : Addr) : Option World := do
  let tb ← w.tables t
  let old ← tb.maps tb.map
  let a := w.brk
  if asSize old.newSize < 1152921504606846976 then
    let (m, old, brk) ← old.doubled (a + 1)
    ({ w with brk := brk }.putTable t ((tb.putMap tb.map old).putMap a m)).updateMap t a
  else none

/-- `_insert_map_value`. -/
def World.insertMapValue (w : World) (t : Addr) (key : Key) (v : Value) :
    Option (LType × World) := do
  let tb ← w.tables t
  let m ← tb.maps tb.map
  let r ← m.insertValue w.brk key v 0
  let w := { w with brk := r.brk }.putTable t (tb.putMap tb.map r.map)
  if maxHashDepth ≤ r.depth then
    let w ← w.expandHash t
    return (r.type, w)
  else return (r.type, w)

/-- `_insert_table`. -/
def World.insertTable (w : World) (t : Addr) (key : Key) (v : Value) :
    Option (LType × World) :=
  w.insertMapValue t key v

/-! ## §8. Setters. -/

/-- What `set_number`, `set_boolean` and `set_ud` have in common: insert, then
compare the type that was there with the type written. -/
def World.setPlain (w : World) (t : Addr) (key : Key) (tmp : Value) (type : LType)
    (v : Word) : Option (Int × World) := do
  let (found, w) ← w.insertTable t key { tmp with type := type, v := v }
  return (if found ≠ type ∧ found ≠ .nil then 1 else 0, w)

/-- `set_number`; `n` is the bit pattern of the double. -/
def World.setNumber (w : World) (t : Addr) (key : Key) (tmp : Value) (n : Word) :
    Option (Int × World) :=
  w.setPlain t key tmp .number n

/-- `set_boolean`; the other half of the union stays uninitialised. -/
def World.setBoolean (w : World) (t : Addr) (key : Key) (tmp : Value) (b : Int32) :
    Option (Int × World) :=
  w.setPlain t key tmp .boolean (Word.setB tmp.v b)

/-- `set_ud`. -/
def World.setUd (w : World) (t : Addr) (key : Key) (tmp : Value) (ud : Word) :
    Option (Int × World) :=
  w.setPlain t key tmp .ud ud

/-- The last branch of `set_string`: a new lstring is built and inserted; the
type that `_insert_table` found is discarded. -/
def World.insertString (w : World) (t : Addr) (key : Key) (tmp : Value) (str : Bytes) :
    Option (Int × World) := do
  let ls := w.brk
  let (ns, w) := { w with brk := w.brk + 1 }.newString str
  let w := w.putLString ls { slot := ns }
  let (_, w) ← w.insertTable t key { tmp with type := .string, v := ls }
  return (0, w)

/-- `set_string`. -/
def World.setString (w : World) (t : Addr) (key : Key) (tmp : Value) (str : Bytes) :
    Option (Int × World) := do
  let (tmp, w) ← w.searchTable t key tmp
  if tmp.type = .string then
    let w ← w.updateString tmp.v str
    return (0, w)
  else if tmp.type ≠ .nil then return (1, w)
  else w.insertString t key tmp str

/-- The value argument of a setter, which also says which setter is called. -/
inductive Arg where
  | number (n : Word)
  | boolean (b : Int32)
  | ud (ud : Word)
  | string (str : Bytes)
  deriving DecidableEq

/-- The type a setter writes. -/
def Arg.type : Arg → LType
  | .number _ => .number
  | .boolean _ => .boolean
  | .ud _ => .ud
  | .string _ => .string

/-- One call of a setter, with what its local `tmp` holds. -/
structure SetCall where
  key : Key
  arg : Arg
  tmp : Value
  deriving DecidableEq

/-- Run one setter call. -/
def World.set (w : World) (t : Addr) (c : SetCall) : Option (Int × World) :=
  match c.arg with
  | .number n => w.setNumber t c.key c.tmp n
  | .boolean b => w.setBoolean t c.key c.tmp b
  | .ud u => w.setUd t c.key c.tmp u
  | .string s => w.setString t c.key c.tmp s

/-- Run a sequence of setter calls; gives their return codes. -/
def World.setAll (w : World) (t : Addr) (cs : List SetCall) : Option (List Int × World) :=
  Run.run (fun w c => World.set w t c) w cs

/-! ## §9. Getters. -/

/-- What `get_number`, `get_boolean` and `get_ud` have in common: search, and
assert that the type is the getter's or `LT_NIL`. -/
def World.getPlain (w : World) (t : Addr) (key : Key) (tmp : Value) (type : LType) :
    Option (Word × World) := do
  let (tmp, w) ← w.searchTable t key tmp
  if tmp.type = .nil ∨ tmp.type = type then return (tmp.v, w) else none

/-- `get_number`. -/
def World.getNumber (w : World) (t : Addr) (key : Key) (tmp : Value) :
    Option (Word × World) :=
  w.getPlain t key tmp .number

/-- `get_boolean`. -/
def World.getBoolean (w : World) (t : Addr) (key : Key) (tmp : Value) :
    Option (Int32 × World) := do
  let (v, w) ← w.getPlain t key tmp .boolean
  return (Word.b v, w)

/-- `get_ud`. -/
def World.getUd (w : World) (t : Addr) (key : Key) (tmp : Value) :
    Option (Word × World) :=
  w.getPlain t key tmp .ud

/-- The `char *` that `get_string` returns: the buffer of a slot, or `""`. -/
inductive CharPtr where
  | buf (slot : Addr)
  | empty
  deriving DecidableEq

/-- `get_string`. -/
def World.getString (w : World) (t : Addr) (key : Key) (tmp : Value) :
    Option (CharPtr × World) := do
  let (tmp, w) ← w.searchTable t key tmp
  if tmp.type = .string then
    let (s, w) ← w.grabString tmp.v
    let w ← w.releaseString s
    return (.buf s, w)
  else if tmp.type = .nil then return (.empty, w)
  else none

/-- The memory a returned `char *` points to. -/
def World.atPtr (w : World) : CharPtr → Option Bytes
  | .buf s => (w.slots s).map StringSlot.buf
  | .empty => some [0]

/-! ## §10. Size and enumeration. -/

/-- A product of two `int`s; an overflow is undefined. -/
def intMul (a b : Int) : Option Int :=
  if -2147483648 ≤ a * b ∧ a * b < 2147483648 then some (a * b) else none

/-- `size`. -/
def World.size (w : World) (t : Addr) : Option (Nat × World) := do
  let (m, w) ← w.grabMap t
  let tb ← w.tables t
  let lm ← tb.maps m
  let s ← intMul lm.size maxHashDepth
  let w ← w.releaseMap t m
  return (asSize s, w)

/-- The record `keys` writes for a node. -/
def Node.record (n : Node) : TableKey :=
  if n.keyType = .string then
    { type := n.v.type, key := n.strkey,
      szIdx := match n.strkey with
        | some (_, s) => asSize s.sz
        | none => 0 }
  else { type := n.v.type, key := none, szIdx := asSize n.numkey }

/-- `vv[record_index] = …`; an index outside the array is undefined. -/
def writeRecord (vv : List TableKey) (recordIndex : Int) (r : TableKey) : Option (List TableKey) :=
  if 0 ≤ recordIndex ∧ recordIndex < vv.length then some (vv.set recordIndex.toNat r) else none

/-- The inner loop of `keys`, along one chain; `limit` is `cap - 1` and
`record_index` is the count before the increment, as an `int`.  Gives whether
it left by the early return, the count and the array. -/
def keysChain (limit : Nat) :
    List Node → Nat → List TableKey → Option (Bool × Nat × List TableKey)
  | [], count, vv => some (false, count, vv)
  | n :: rest, count, vv =>
      if limit ≤ count then some (true, count, vv)
      else do
        let vv ← writeRecord vv (asInt count) n.record
        keysChain limit rest (count + 1) vv

/-- The outer loop, over the buckets. -/
def keysChains (limit : Nat) :
    List (List Node) → Nat → List TableKey → Option (Bool × Nat × List TableKey)
  | [], count, vv => some (false, count, vv)
  | chain :: rest, count, vv => do
      let (early, count, vv) ← keysChain limit chain count vv
      if early then return (true, count, vv) else keysChains limit rest count vv

/-- `cap - 1`, as a `size_t`. -/
def keysLimit (cap : Nat) : Nat := (cap + 18446744073709551615) % 18446744073709551616

/-- `keys`, with the array the caller passes: the count it returns and what
the array holds then.  The map is given back on the early return too. -/
def World.keysInto (w : World) (t : Addr) (vv : List TableKey) (cap : Nat) :
    Option (Nat × List TableKey × World) := do
  let (m, w) ← w.grabMap t
  let tb ← w.tables t
  let lm ← tb.maps m
  let (early, count, vv) ← keysChains (keysLimit cap) (lm.data.take lm.size.toNat) 0 vv
  if early then
    let w ← w.releaseMap t m
    return (count, vv, w)
  else
    let w ← w.releaseMap t m
    return (count, vv, w)

/-- `keys` as all its callers use it, on an array of `cap` records that was
just allocated: the records in front, as many as it returns. -/
def World.keys (w : World) (t : Addr) (cap : Nat) : Option (List TableKey × World) := do
  let (count, vv, w) ← w.keysInto t (List.replicate cap .blank) cap
  return (vv.take count, w)

end LightTable
