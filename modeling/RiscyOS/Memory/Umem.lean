import RiscyOS.Process
import RiscyOS.Lib.Bitmap
import Mathlib.Order.Bounds.Basic

/-!
# User memory

`kernel/memory/umem_alloc.c` and `kernel/memory/umem.s`.  User RAM is the 256 KiB from `0x40000` on,
in blocks of 64 bytes, and `alloc_bitmap` has one bit for each of the 4096 blocks, set when it is in
use.  The C half finds, marks and clears runs of bits; the assembly half turns sizes in bytes into
numbers of bits and addresses into bit positions.

The bitmap is indexed by `int`s: bytes `0` to `511` are `alloc_bitmap`, and the others are whatever
lies before and after it in memory, which a loop that runs off the array reaches.  Bit positions and
counts are integers, as no sum of them here leaves the range of an `int`.
-/

set_option autoImplicit false

namespace RiscyOS

open Memory Bitmap

/-! ## `umem_alloc.c` -/

/-- `USER_RAM_START`. -/
def userRamStart : Word := 0x40000

/-- `ALLOC_ARRAY_BYTE_SIZE`. -/
def allocArrayByteSize : Nat := 512

/-- `MIN_BLOCK_SIZE`, which `umem.s` calls `MIN_BLOCK`. -/
def minBlockSize : Word := 64

/-- The number of bits in `alloc_bitmap`. -/
def numBlocks : Nat := allocArrayByteSize * 8

theorem numBlocks_eq : numBlocks = 4096 := rfl

/-- `mark_bits_used`. -/
def markBitsUsed (startBit count : Int) (allocBitmap : Bits) : Bits :=
  forRange set startBit count.toNat allocBitmap

/-- `mark_bits_free`. -/
def markBitsFree (startBit count : Int) (allocBitmap : Bits) : Bits :=
  forRange clear startBit count.toNat allocBitmap

/-- The loop of `ualloc_try_block`, with `n` bits to look at from bit `i` on: the start of the run
it finds. -/
def findRun (allocBitmap : Bits) (numBits : Int) : Nat → Int → Int → Int → Option Int
  | 0, _, _, _ => none
  | n + 1, i, consecutiveZeros, startBit =>
    if test allocBitmap i = false then
      let startBit := if consecutiveZeros = 0 then i else startBit
      let consecutiveZeros := consecutiveZeros + 1
      if consecutiveZeros = numBits then some startBit
      else findRun allocBitmap numBits n (i + 1) consecutiveZeros startBit
    else findRun allocBitmap numBits n (i + 1) 0 startBit

/-- The address of a block. -/
def blockAddr (bit : Int) : Word := userRamStart + BitVec.ofInt 32 bit * minBlockSize

/-- `ualloc_try_block`. -/
def uallocTryBlock (numBits : Int) (allocBitmap : Bits) : Ptr × Bits :=
  match findRun allocBitmap numBits numBlocks 0 0 (-1) with
  | some startBit => (blockAddr startBit, markBitsUsed startBit numBits allocBitmap)
  | none => (null, allocBitmap)

/-! ## `umem.s` -/

/-- `round_next_power_of_two`. -/
def roundNextPowerOfTwo (a0 : Word) : Word :=
  let a0 := a0 - 1
  let a0 := a0 ||| (a0 >>> 1)
  let a0 := a0 ||| (a0 >>> 2)
  let a0 := a0 ||| (a0 >>> 4)
  let a0 := a0 ||| (a0 >>> 8)
  let a0 := a0 ||| (a0 >>> 16)
  a0 + 1

/-- From `li t0, MIN_BLOCK` on in both routines: at least one block, by a signed comparison, and
then quotient plus remainder. -/
def sizeToBits (size : Word) : Word :=
  let size := if minBlockSize.toInt ≤ size.toInt then size else minBlockSize
  size / minBlockSize + size % minBlockSize

/-- `ualloc`.  Nothing asked for is answered with `1`. -/
def ualloc (a0 : Word) (allocBitmap : Bits) : Ptr × Bits :=
  if a0 = 0 then (1, allocBitmap)
  else uallocTryBlock (sizeToBits (roundNextPowerOfTwo a0)).toInt allocBitmap

/-- `ufree`.  What is rounded is `a0`, the address. -/
def ufree (a0 a1 : Word) (allocBitmap : Bits) : Bits :=
  if a1 = 0 then allocBitmap
  else markBitsFree ((roundNextPowerOfTwo a0 - userRamStart).sdiv minBlockSize).toInt
    (sizeToBits a1).toInt allocBitmap

/-! ## Sizes -/

theorem roundNextPowerOfTwo_toNat (a0 : Word) :
    (roundNextPowerOfTwo a0).toNat = 2 ^ (a0 - 1).toNat.size % 2 ^ 32 := by
  have h := (((((Smeared.one (a0 - 1)).double).double).double).double).double
  have hpos : 0 < 2 ^ (a0 - 1).toNat.size := Nat.two_pow_pos _
  have hone : (1 : Word).toNat = 1 := rfl
  rw [roundNextPowerOfTwo, BitVec.toNat_add, h.toNat_eq, hone, Nat.sub_add_cancel hpos]

theorem toNat_sub_one {n : Word} (hpos : 1 ≤ n.toNat) : (n - 1).toNat = n.toNat - 1 := by
  have hlt := n.isLt
  rw [BitVec.toNat_sub]
  change (2 ^ 32 - 1 + n.toNat) % 2 ^ 32 = _
  omega

/-- Up to `2 ^ 31` the power is one that a word can hold. -/
theorem roundNextPowerOfTwo_eq {n : Word} (hpos : 1 ≤ n.toNat) (hle : n.toNat ≤ 2 ^ 31) :
    (roundNextPowerOfTwo n).toNat = 2 ^ (n.toNat - 1).size := by
  have hsize : (n.toNat - 1).size ≤ 31 := Nat.size_le.2 (by omega)
  have hpow : 2 ^ (n.toNat - 1).size < 2 ^ 32 := Nat.pow_lt_pow_right Nat.one_lt_two (by omega)
  rw [roundNextPowerOfTwo_toNat, toNat_sub_one hpos, Nat.mod_eq_of_lt hpow]

/-- The powers of two from `n` on. -/
def powersFrom (n : Nat) : Set Nat := {m | (∃ k, m = 2 ^ k) ∧ n ≤ m}

/-- **Rounding up** gives the least power of two that is not below, as long as there is one in a word. -/
theorem roundNextPowerOfTwo_isLeast (n : Word) (hpos : 1 ≤ n.toNat) (hle : n.toNat ≤ 2 ^ 31) :
    IsLeast (powersFrom n.toNat) (roundNextPowerOfTwo n).toNat := by
  rw [roundNextPowerOfTwo_eq hpos hle]
  constructor
  · have hlt : n.toNat - 1 < 2 ^ (n.toNat - 1).size := Nat.lt_size_self _
    exact ⟨⟨_, rfl⟩, by omega⟩
  · rintro m ⟨⟨k, rfl⟩, hm⟩
    refine Nat.pow_le_pow_right Nat.two_pos (Nat.size_le.2 ?_)
    omega

/-- 72 bytes are rounded up to two blocks. -/
theorem roundNextPowerOfTwo_72 : (roundNextPowerOfTwo 72).toNat = 128 ∧
    IsLeast (powersFrom (72 : Word).toNat) (roundNextPowerOfTwo 72).toNat :=
  ⟨by decide, roundNextPowerOfTwo_isLeast 72 (by decide) (by decide)⟩

/-- Beyond that, and for 0, the sum wraps around. -/
theorem roundNextPowerOfTwo_eq_zero {n : Word} (h : n = 0 ∨ 2 ^ 31 < n.toNat) : roundNextPowerOfTwo n = 0 := by
  rcases h with rfl | h
  · decide
  · have hlt := n.isLt
    have hsize : (n.toNat - 1).size = 32 :=
      le_antisymm (Nat.size_le.2 (by omega)) (Nat.lt_size.2 (by omega))
    refine BitVec.eq_of_toNat_eq ?_
    rw [roundNextPowerOfTwo_toNat, toNat_sub_one (by omega), hsize]
    rfl

/-- A size below one block is one block, and so is a size with the top bit set, which compares as a
negative number. -/
theorem sizeToBits_toInt (size : Word) :
    (sizeToBits size).toInt =
      if 64 ≤ size.toNat ∧ size.toNat < 2 ^ 31 then (size.toNat / 64 + size.toNat % 64 : Nat)
      else 1 := by
  have hmin : minBlockSize.toInt = 64 := rfl
  have hiff : minBlockSize.toInt ≤ size.toInt ↔ 64 ≤ size.toNat ∧ size.toNat < 2 ^ 31 := by
    have := size.isLt
    rw [hmin, BitVec.toInt_eq_toNat_cond]
    split <;> omega
  rw [sizeToBits]
  by_cases h : 64 ≤ size.toNat ∧ size.toNat < 2 ^ 31
  · rw [if_pos (hiff.2 h), if_pos h]
    have hbits : (size / minBlockSize + size % minBlockSize).toNat =
        size.toNat / 64 + size.toNat % 64 := by
      rw [BitVec.toNat_add, BitVec.toNat_udiv, BitVec.toNat_umod]
      change (size.toNat / 64 + size.toNat % 64) % 2 ^ 32 = _
      omega
    rw [BitVec.toInt_eq_toNat_of_lt (by omega), hbits]
  · rw [if_neg fun hle => h (hiff.1 hle), if_neg h]
    rfl

end RiscyOS
