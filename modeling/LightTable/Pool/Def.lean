/-
  LightTable.Pool.Def
  ───────────────────
  The pool of blocks of `memory_pool/mem_pool.cpp`.

  The free blocks are linked through their `next` fields from `head` on.  A
  block that was destroyed keeps the fields its destructor wrote; that it was
  destroyed is written down, and so is every read of a field of it.
-/
import LightTable.Struct
import LightTable.Lib.LinkedList
import LightTable.Lib.Run
import Mathlib.Logic.Function.Basic

namespace LightTable

/-! ## §1. Blocks. -/

/-- `memory_block`; a null `data` is `none`. -/
structure Block where
  size : Nat
  data : Option Bytes
  next : Option Addr
  deriving DecidableEq

/-- The constructor of `memory_block`. -/
def newBlock (initBlockSize : Nat) : Block :=
  { size := initBlockSize, data := some (List.replicate initBlockSize 0), next := none }

/-- What `~memory_block` leaves in the fields. -/
def deadBlock : Block := { size := 0, data := none, next := none }

/-! ## §2. The pool. -/

/-- `memory_pool`, with the memory of its blocks: what was allocated, which
blocks were destroyed and of which a field was read after that, both latest
first. -/
structure Pool where
  blocks : Addr → Option Block
  brk : Nat
  len : Nat
  head : Option Addr
  destroyed : List Addr
  stale : List Addr

/-- `new memory_block`. -/
def Pool.alloc (s : Pool) (initBlockSize : Nat) : Addr × Pool :=
  (s.brk, { s with
    blocks := Function.update s.blocks s.brk (some (newBlock initBlockSize))
    brk := s.brk + 1 })

/-- `a->next`. -/
def Pool.readNext (s : Pool) (a : Addr) : Option (Option Addr × Pool) := do
  let b ← s.blocks a
  return (b.next, { s with stale := if a ∈ s.destroyed then a :: s.stale else s.stale })

/-- `a->next = p`. -/
def Pool.writeNext (s : Pool) (a : Addr) (p : Option Addr) : Option Pool := do
  let b ← s.blocks a
  return { s with blocks := Function.update s.blocks a (some { b with next := p }) }

/-- `delete a`. -/
def Pool.deleteBlock (s : Pool) (a : Addr) : Option Pool := do
  let _ ← s.blocks a
  return { s with
    blocks := Function.update s.blocks a (some deadBlock)
    destroyed := a :: s.destroyed }

/-! ## §3. The constructor. -/

/-- The loop of the constructor, at most `fuel` rounds.  The counter is an
`int`; the comparison makes it a `size_t`. -/
def Pool.buildLoop (initLen initBlockSize : Nat) : Nat → Int → Addr → Pool → Option Pool
  | 0, _, _, _ => none
  | fuel + 1, i, trace, s =>
      if asSize i < initLen then do
        let (b, s) := s.alloc initBlockSize
        let s ← s.writeNext trace (some b)
        let (next, s) ← s.readNext trace
        Pool.buildLoop initLen initBlockSize fuel (asInt (i + 1)) (← next) s
      else some s

/-- `memory_pool::memory_pool`: after 2^32 rounds the counter has taken every
value. -/
def newPool (initLen initBlockSize : Nat) : Option Pool :=
  let s : Pool := { blocks := fun _ => none, brk := 0, len := initLen, head := none,
                    destroyed := [], stale := [] }
  let (trace, s) := s.alloc initBlockSize
  Pool.buildLoop initLen initBlockSize 4294967296 1 trace { s with head := some trace }

/-! ## §4. Taking and giving back. -/

/-- `get_block`; it reads through `head`, which a null `head` does not allow. -/
def Pool.getBlock (s : Pool) : Option (Option Addr × Pool) := do
  let ret := s.head
  let (next, s) ← s.readNext (← s.head)
  return (ret, { s with head := next })

/-- `free_block`. -/
def Pool.freeBlock (s : Pool) (block : Addr) : Option Pool := do
  let s ← s.writeNext block s.head
  return { s with head := some block }

/-! ## §5. The destructor. -/

/-- The loop of `~memory_pool`, at most `fuel` rounds. -/
def Pool.destroyLoop : Nat → Option Addr → Pool → Option Pool
  | _, none, s => some s
  | 0, some _, _ => none
  | fuel + 1, some trace, s => do
      let temp := trace
      let s ← s.deleteBlock trace
      let (trace, s) ← s.readNext temp
      Pool.destroyLoop fuel trace s

/-- `~memory_pool`, with a round for every block there is. -/
def Pool.destroy (s : Pool) : Option Pool := Pool.destroyLoop s.brk s.head s

/-! ## §6. Clients. -/

/-- What a client does with the pool. -/
inductive PoolStep where
  | get
  | free (block : Addr)
  deriving DecidableEq

/-- The pool and the blocks its clients hold. -/
structure PoolState where
  pool : Pool
  out : List Addr

/-- One step; `get` gives the pointer that `get_block` returns. -/
def PoolState.step (s : PoolState) : PoolStep → Option (Option Addr × PoolState)
  | .get => do
      let (ret, pool) ← s.pool.getBlock
      return (ret, { pool := pool, out := ret.toList ++ s.out })
  | .free block => do
      let pool ← s.pool.freeBlock block
      return (none, { pool := pool, out := s.out.erase block })

/-- A client gives back only a block it holds. -/
def PoolState.Owned (s : PoolState) : PoolStep → Prop
  | .get => True
  | .free block => block ∈ s.out

instance (s : PoolState) (a : PoolStep) : Decidable (s.Owned a) :=
  match a with
  | .get => isTrue trivial
  | .free block => inferInstanceAs (Decidable (block ∈ s.out))

/-- The link in a block. -/
def Pool.next (s : Pool) (a : Addr) : Option (Option Addr) := (s.blocks a).map Block.next

/-- The free list. -/
def Pool.FreeList (s : Pool) (free : List Addr) : Prop := LinkedList.Chain s.next s.head free

end LightTable
