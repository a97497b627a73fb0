import Mathlib.Algebra.Group.Nat.Defs

/-! # Configuration and utilities

The constants of `config.h` and `util.h`, with the arithmetic of the macros
evaluated, and the hash of the client cache.  Sizes and offsets are natural
numbers; the places where the code's 32-bit arithmetic can wrap or compare as
`int` say so.
-/

namespace PFS

/-- `PFS_BLOCK_SIZE * 1024`. -/
def pfsBlockSizeInBytes : Nat := 1024

/-- `STRIP_SIZE`, in blocks. -/
def stripSize : Nat := 1

/-- `NUM_FILE_SERVERS`. -/
def numFileServers : Nat := 5

/-- `CLIENT_CACHE_SIZE * 1024 * 1024`. -/
def clientCacheSizeInBytes : Nat := 2 * 1024 * 1024

/-- `HASH_BUCKETS`. -/
def hashBuckets : Nat := clientCacheSizeInBytes / pfsBlockSizeInBytes / 2

/-- `INT_MAX` of a 32-bit `int`. -/
def intMax : Nat := 2 ^ 31 - 1

/-- Number of values of a `uint32_t`. -/
def uint32Size : Nat := 2 ^ 32

/-- The `int` with the bits of the `uint32_t` `n`. -/
def asInt (n : Nat) : Int :=
  if n ≤ intMax then n else (n : Int) - uint32Size

/-- Address of the block that holds the byte at `offset`. -/
def blockOf (offset : Nat) : Nat := offset / pfsBlockSizeInBytes * pfsBlockSizeInBytes

theorem blockOf_le (b : Nat) : blockOf b ≤ b := Nat.div_mul_le_self b pfsBlockSizeInBytes

theorem lt_blockOf_add (b : Nat) : b < blockOf b + pfsBlockSizeInBytes := by
  have split := Nat.div_add_mod b pfsBlockSizeInBytes
  have small : b % pfsBlockSizeInBytes < pfsBlockSizeInBytes := Nat.mod_lt b (by decide)
  rw [Nat.mul_comm] at split
  simp only [blockOf]
  omega

theorem sub_blockOf (b : Nat) : b - blockOf b = b % pfsBlockSizeInBytes := by
  have split := Nat.div_add_mod b pfsBlockSizeInBytes
  rw [Nat.mul_comm] at split
  simp only [blockOf]
  omega

/-- The addresses of blocks. -/
theorem blockOf_eq_iff {a b : Nat} (aligned : a % pfsBlockSizeInBytes = 0) :
    blockOf b = a ↔ a ≤ b ∧ b < a + pfsBlockSizeInBytes := by
  simp only [blockOf, pfsBlockSizeInBytes] at aligned ⊢
  omega

theorem blockOf_aligned (b : Nat) : blockOf b % pfsBlockSizeInBytes = 0 := Nat.mul_mod_left _ _

/-- `hashPFS`; `std::hash<uint32_t>` is the identity in libstdc++. -/
def hashPFS (fdes blockAddr : Nat) : Nat := (fdes ^^^ (blockAddr <<< 1)) &&& (hashBuckets - 1)

/-- The status a handler returns; `unknown` is what the RPC library answers for
    a handler that throws. -/
inductive Status where
  | ok
  | cancelled
  | unknown
  deriving DecidableEq, Repr

/-! The error codes of `util.h` that are returned. -/

def errorAlreadyExists : Int := -1
def errorDoesNotExist : Int := -2
def errorCloseUnopenedFile : Int := -3
def errorDeleteOpenFile : Int := -4
def errorGetPermissionUnopenedFile : Int := -6

end PFS
