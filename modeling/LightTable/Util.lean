/-
  LightTable.Util
  ───────────────
  The helpers of `ltutil.cpp`: the two hash functions that share the buckets,
  string slots, and the prime search that gives a fresh table its size.
-/
import LightTable.Struct
import Mathlib.Data.Nat.Find

namespace LightTable

/-! ## §1. Hashing. -/

/-- `(uint32_t) name[i]`: a `char` is signed, so its sign is extended. -/
def charU32 (c : UInt8) : UInt32 := UInt32.ofInt c.toInt8.toInt

/-- A round of the loop of `hash_str`. -/
def mixChar (h : UInt32) (c : UInt8) : UInt32 := h ^^^ ((h <<< 5) + (h >>> 2) + charU32 c)

/-- `hash_str` before it is masked, over the `len` bytes read at `name`. -/
def hashBits (name : Bytes) : UInt32 := name.foldl mixChar (UInt32.ofNat name.length)

/-- `hash_str`. -/
def hashStr (name : Bytes) (mapSize : Int) : UInt32 :=
  hashBits name &&& UInt32.ofInt (mapSize - 1)

/-- `mod`; an `int` divisor is widened to `size_t` first. -/
def mod (numkey : Nat) (mapSize : Int) : UInt32 :=
  UInt32.ofNat (numkey % asSize mapSize)

/-- The hash of a numeric key. -/
def hashNum (numkey : Nat) (mapSize : Int) : UInt32 := mod numkey mapSize

/-- The bucket of a key. -/
def hash (key : Key) (mapSize : Int) : UInt32 :=
  match key with
  | .str name => hashStr name mapSize
  | .num idx => hashNum idx.toNat mapSize

/-- A masked hash is at most the mask. -/
theorem hashStr_lt (name : Bytes) {m : Int} (h0 : 0 < m) (h1 : m < 2147483648) :
    (hashStr name m).toNat < m.toNat := by
  have hmask : (UInt32.ofInt (m - 1)).toNat = (m - 1).toNat := by
    rw [UInt32.ofInt, UInt32.toNat_ofNat']
    omega
  unfold hashStr
  rw [UInt32.toNat_and, hmask]
  refine Nat.lt_of_le_of_lt Nat.and_le_right ?_
  omega

theorem hashNum_lt (numkey : Nat) {m : Int} (h0 : 0 < m) (h1 : m < 2147483648) :
    (hashNum numkey m).toNat < m.toNat := by
  unfold hashNum mod
  have hm : asSize m = m.toNat := asSize_of_nonneg (by omega) (by omega)
  rw [hm, UInt32.toNat_ofNat']
  have := Nat.mod_lt numkey (show 0 < m.toNat by omega)
  omega

/-- Every index computed by `hash` is below a positive `int` bucket count. -/
theorem hash_lt (key : Key) {m : Int} (h0 : 0 < m) (h1 : m < 2147483648) :
    (hash key m).toNat < m.toNat := by
  cases key with
  | str name => exact hashStr_lt name h0 h1
  | num idx => exact hashNum_lt idx.toNat h0 h1

/-! ## §2. String slots. -/

/-- `cmp_string`; the `int sz` of the slot is compared as a `size_t`. -/
def cmpString (a : StringSlot) (b : Bytes) : Bool :=
  asSize a.sz == b.length && a.buf.take b.length == b

/-- What `new_string` writes into the slot it allocates. -/
def newString (name : Bytes) : StringSlot :=
  { ref := 1, sz := asInt name.length, buf := name ++ [0] }

/-! ## §3. The initial size. -/

/-- The table `first` of `is_prime`, without its end mark. -/
def firstPrimes : List Nat := [2, 3, 5, 7, 11, 13, 17, 19, 23]

/-- `(int) sqrt(n)`, the integer square root. -/
def intSqrt (n : Nat) : Nat := Nat.findGreatest (fun r => r * r ≤ n) n

/-- `is_prime`. -/
def isPrime (n : Nat) : Bool :=
  firstPrimes.all (fun p => n % p != 0)
    && (List.range' 29 (intSqrt n + 1 - 29)).all (fun i => n % i != 0)

/-- The loop of `next_prime`, at most `fuel` rounds; the counter is an
`unsigned int`. -/
def nextPrimeLoop : Nat → Nat → Option Nat
  | 0, _ => none
  | fuel + 1, n =>
      let n := (n + 1) % 4294967296
      if isPrime n then some n else nextPrimeLoop fuel n

/-- `next_prime`: after 2^32 rounds the counter has taken every value. -/
def nextPrime (n : Nat) : Option Nat := nextPrimeLoop 4294967296 n

/-- `DEFAULT_SIZE` of a fresh table. -/
def defaultSize : Nat := 4

/-- `MAX_HASH_DEPTH`, the chain length that makes an insert expand. -/
def maxHashDepth : Nat := 7

/-- `is_prime` refuses the primes of its own table, so the first size is 29. -/
theorem nextPrime_default : nextPrime defaultSize = some 29 := by decide

end LightTable
