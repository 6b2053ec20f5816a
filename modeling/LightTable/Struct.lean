/-
  LightTable.Struct
  ─────────────────
  The data of the light table (`lstruct.h`, and `struct node` of `lmap.h`).

  Integers.  A C `int` is an `Int` kept inside 32 bits by `asInt`; a `size_t`
  is a `Nat`, and an `int` used where a `size_t` is expected goes through
  `asSize` (sign extension to 64 bits).

  Memory.  An address is a `Nat` and is handed out once: memory is never
  exhausted and a freed address is not reused.  The eight bytes of the value
  union are one number (`Word`), so that reading a member other than the one
  written last gives the bits that are there.
-/
import Mathlib.Data.List.Basic

namespace LightTable

/-! ## §1. Integers and addresses. -/

/-- Conversion to a 32-bit `int`. -/
def asInt (x : Int) : Int := (x + 2147483648) % 4294967296 - 2147483648

/-- Conversion of an `int` to a 64-bit `size_t`. -/
def asSize (x : Int) : Nat := (x % 18446744073709551616).toNat

/-- An address, and what a pointer holds. -/
abbrev Addr := Nat

/-- The eight bytes of the value union; a pointer is stored as its address. -/
abbrev Word := Nat

/-- The bytes of a C string with an explicit length. -/
abbrev Bytes := List UInt8

theorem asInt_of_small {x : Int} (h0 : -2147483648 ≤ x) (h1 : x < 2147483648) :
    asInt x = x := by
  unfold asInt; omega

theorem asInt_bounds (x : Int) : -2147483648 ≤ asInt x ∧ asInt x < 2147483648 := by
  unfold asInt; omega

theorem asSize_of_nonneg {x : Int} (h0 : 0 ≤ x) (h1 : x < 18446744073709551616) :
    asSize x = x.toNat := by
  unfold asSize; omega

/-! ## §2. Types and keys. -/

/-- The type tags `LT_NIL` … `LT_STRING`. -/
inductive LType where
  | nil
  | number
  | boolean
  | ud
  | string
  deriving Repr, DecidableEq

/-- The argument pair `(const char *key, size_t sz_idx)`: a null `key` makes
`sz_idx` a numeric index, otherwise `sz_idx` bytes are read at `key`. -/
inductive Key where
  | str (bytes : Bytes)
  | num (idx : UInt64)
  deriving Repr, DecidableEq

/-- The `sz_idx` half of a key. -/
def Key.szIdx : Key → Nat
  | .str bytes => bytes.length
  | .num idx => idx.toNat

/-- A key whose `sz_idx` survives the trip through an `int` and back. -/
def Key.Fits (k : Key) : Prop := asSize (asInt k.szIdx) = k.szIdx

/-- A key whose `sz_idx` is below 2^31. -/
def Key.Short (k : Key) : Prop := k.szIdx < 2147483648

instance (k : Key) : Decidable k.Fits := inferInstanceAs (Decidable (_ = _))

instance (k : Key) : Decidable k.Short := inferInstanceAs (Decidable (_ < _))

theorem Key.Short.fits {k : Key} (h : k.Short) : k.Fits := by
  unfold Key.Short at h
  unfold Key.Fits asSize asInt
  omega

/-- The keys that fit: short ones, and those whose `sz_idx` is the sign
extension of a negative `int`. -/
theorem Key.fits_iff (k : Key) :
    k.Fits ↔ k.szIdx < 2147483648
      ∨ (18446744071562067968 ≤ k.szIdx ∧ k.szIdx < 18446744073709551616) := by
  unfold Key.Fits asSize asInt
  omega

/-! ## §3. Strings, values and nodes. -/

/-- A `struct string_slot`; `buf` holds every byte that was allocated for it,
the closing NUL included. -/
structure StringSlot where
  ref : Int
  sz : Int
  buf : Bytes
  deriving Repr, DecidableEq

/-- A `struct lstring`.  Its spin lock is left out: each locked region is one
step of the model. -/
structure LString where
  slot : Addr
  deriving Repr, DecidableEq

/-- A `struct value`. -/
structure Value where
  ref : Int
  type : LType
  v : Word
  deriving Repr, DecidableEq

/-- What a local `struct value` holds before anything is written to it. -/
def Value.blank : Value := ⟨0, .nil, 0⟩

/-- Reading the `int b` member: the low four bytes. -/
def Word.b (w : Word) : Int32 := Int32.ofNat w

/-- Writing the `int b` member: the high four bytes stay. -/
def Word.setB (w : Word) (b : Int32) : Word :=
  w / 4294967296 * 4294967296 + b.toBitVec.toNat

theorem Word.b_setB (w : Word) (b : Int32) : Word.b (Word.setB w b) = b := by
  apply Int32.toBitVec_inj.mp
  apply BitVec.eq_of_toNat_eq
  show (BitVec.ofNat 32 (Word.setB w b)).toNat = b.toBitVec.toNat
  have := b.toBitVec.isLt
  rw [BitVec.toNat_ofNat]
  unfold Word.setB
  omega

/-- A `struct node`.  A chain is the list of its nodes, so `next` is the rest
of the list; `addr` is where the node itself was allocated.  The bytes of a
key string are written once, by `new_string`, so `strkey` carries what it
points to beside the pointer. -/
structure Node where
  addr : Addr
  keyType : LType
  strkey : Option (Addr × StringSlot)
  numkey : Int
  v : Value
  deriving Repr, DecidableEq

/-- A `struct table_key`, one record of an enumeration. -/
structure TableKey where
  type : LType
  key : Option (Addr × StringSlot)
  szIdx : Nat
  deriving Repr, DecidableEq

/-- A record nothing was written to. -/
def TableKey.blank : TableKey := ⟨.nil, none, 0⟩

/-- Reading `n` bytes at the start of an allocated block; past its end the
read is undefined. -/
def readBytes (buf : Bytes) (n : Nat) : Option Bytes :=
  if n ≤ buf.length then some (buf.take n) else none

/-- The key a record names. -/
def TableKey.toKey (r : TableKey) : Option Key :=
  match r.key with
  | some (_, s) => (readBytes s.buf r.szIdx).map Key.str
  | none => some (Key.num (UInt64.ofNat r.szIdx))

end LightTable
