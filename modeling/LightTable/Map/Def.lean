/-
  LightTable.Map.Def
  ──────────────────
  The hash map of `lmap.cpp`: an array of chains.

  Undefined behaviour (an index outside the array, a read past a block) is
  `none`.  The functions that allocate take the next free address `brk` and
  give back the one after what they used.
-/
import LightTable.Util

namespace LightTable

/-! ## §1. Nodes. -/

/-- `_new_node`: zeroed memory, then the key and the type. -/
def newNode (brk : Addr) (key : Key) (type : LType) : Node × Addr :=
  match key with
  | .str name =>
      ({ addr := brk, keyType := .string, strkey := some (brk + 1, newString name),
         numkey := 0, v := ⟨0, type, 0⟩ }, brk + 2)
  | .num idx =>
      ({ addr := brk, keyType := .number, strkey := none,
         numkey := asInt idx.toNat, v := ⟨0, type, 0⟩ }, brk + 1)

/-- `_is_in_hash`. -/
def isInHash (key : Key) (pn : Node) : Bool :=
  match key with
  | .str name =>
      pn.keyType == .string
        && (match pn.strkey with
            | some (_, s) => cmpString s name
            | none => false)
  | .num idx => pn.keyType == .number && asSize pn.numkey == idx.toNat

/-- The key `_insert_node` reads back out of a node: `k->sz` bytes at
`k->buf`, or the `int` index; both lengths are widened to `size_t`. -/
def Node.storedKey (n : Node) : Option Key :=
  match n.strkey with
  | some (_, k) => (readBytes k.buf (asSize k.sz)).map Key.str
  | none => some (Key.num (UInt64.ofNat (asSize n.numkey)))

/-! ## §2. The map. -/

/-- A `class lmap`; `data` is the array of chain heads. -/
structure LMap where
  ref : Int
  size : Int
  data : List (List Node)
  index : Int
  deriving Repr, DecidableEq

/-- The constructor; `n` is a `size_t`, the field `size` an `int`. -/
def LMap.new (n : Nat) : LMap :=
  { ref := 1, size := asInt n, data := List.replicate n [], index := 0 }

/-- Every node, in the order of the double loop over buckets and chains. -/
def LMap.entries (m : LMap) : List Node := m.data.flatten

/-- The index `h = hash(key, sz, size)`. -/
def bucket (size : Int) (key : Key) : Nat := (hash key size).toNat

/-- The chain `data[h]` of a key. -/
def LMap.chain (m : LMap) (key : Key) : Option (List Node) := m.data[bucket m.size key]?

/-- Write the chain of a key. -/
def LMap.setChain (m : LMap) (key : Key) (chain : List Node) : LMap :=
  { m with data := m.data.set (bucket m.size key) chain }

/-! ## §3. Search and insert. -/

/-- The loop of `_search`: `*result` is overwritten by the first node found,
else only its type is. -/
def searchLoop (key : Key) (result : Value) : List Node → Value
  | [] => { result with type := .nil }
  | n :: rest => if isInHash key n then n.v else searchLoop key result rest

/-- `_search`. -/
def LMap.search (m : LMap) (key : Key) (result : Value) : Option Value := do
  let chain ← m.chain key
  return searchLoop key result chain

/-- The loop of `_insert_value`.  Gives the type of the node found (if any),
the depth reached and the new chain; a node that is found keeps its own type
and takes the union of the written value, otherwise `n` is linked at the
tail. -/
def insertLoop (key : Key) (v : Word) (n : Node) :
    List Node → Nat → Option LType × Nat × List Node
  | [], depth => (none, depth, [n])
  | tmp :: rest, depth =>
      if isInHash key tmp then
        (some tmp.v.type, depth, { tmp with v := { tmp.v with v := v } } :: rest)
      else
        let (found, depth', rest') := insertLoop key v n rest (depth + 1)
        (found, depth', tmp :: rest')

/-- What `_insert_value` returns, with the map and the free address after it. -/
structure Inserted where
  type : LType
  depth : Nat
  map : LMap
  brk : Addr
  deriving Repr, DecidableEq

/-- The node `_insert_value` builds for an absent key. -/
def freshNode (brk : Addr) (key : Key) (v : Value) : Node :=
  { (newNode brk key v.type).1 with v := { v with ref := 1 } }

/-- `_insert_value`; `depth` is its reference argument. -/
def LMap.insertValue (m : LMap) (brk : Addr) (key : Key) (v : Value) (depth : Nat) :
    Option Inserted := do
  let chain ← m.chain key
  match insertLoop key v.v (freshNode brk key v) chain depth with
  | (some type, depth', chain') =>
      return { type := type, depth := depth', map := m.setChain key chain', brk := brk }
  | (none, depth', chain') =>
      return { type := .nil, depth := depth',
               map := { m.setChain key chain' with index := m.index + 1 },
               brk := (newNode brk key v.type).2 }

/-! ## §4. Copying into a larger map. -/

/-- `_insert_node`: a copy of `n` is linked at the head of its chain.  The
copy takes the value as it is; then the counter of `n`'s own value goes up.
Gives the map, the node `n` after that, and the next free address. -/
def LMap.insertNode (m : LMap) (brk : Addr) (n : Node) : Option (LMap × Node × Addr) := do
  let key ← n.storedKey
  let chain ← m.chain key
  let (c, brk') := newNode brk key n.v.type
  return (m.setChain key ({ c with v := n.v } :: chain),
          { n with v := { n.v with ref := n.v.ref + 1 } }, brk')

/-- The inner loop of `_copy_map`, along one chain. -/
def LMap.copyChain (m : LMap) (brk : Addr) : List Node → Option (LMap × List Node × Addr)
  | [] => some (m, [], brk)
  | n :: rest => do
      let (m, n', brk) ← m.insertNode brk n
      let (m, rest', brk) ← LMap.copyChain m brk rest
      return (m, n' :: rest', brk)

/-- The outer loop of `_copy_map`, over the chains. -/
def LMap.copyChains (m : LMap) (brk : Addr) :
    List (List Node) → Option (LMap × List (List Node) × Addr)
  | [] => some (m, [], brk)
  | chain :: rest => do
      let (m, chain', brk) ← m.copyChain brk chain
      let (m, rest', brk) ← LMap.copyChains m brk rest
      return (m, chain' :: rest', brk)

/-- `_copy_map`, over the buckets `0 … cm->size - 1`.  Gives the filled map,
`cm` with its counters raised, and the next free address. -/
def LMap.copyMap (m cm : LMap) (brk : Addr) : Option (LMap × LMap × Addr) := do
  let (m, front, brk) ← m.copyChains brk (cm.data.take cm.size.toNat)
  return (m, { cm with data := front ++ cm.data.drop cm.size.toNat }, brk)

/-- `new_size` of `_expand_hash`. -/
def LMap.newSize (m : LMap) : Int := asInt (m.size * 2)

/-- The map `_expand_hash` builds: twice the buckets, filled from `m`. -/
def LMap.doubled (m : LMap) (brk : Addr) : Option (LMap × LMap × Addr) :=
  (LMap.new (asSize m.newSize)).copyMap m brk

end LightTable
