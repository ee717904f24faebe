import RiscyOS.Memory.Umem
import Mathlib

/-!
# What the user allocator does

The scan of `ualloc_try_block` finds the first run of free bits that is long enough, or there is
none (`findRun_firstRun`); what it returns is marked and nothing else is.  From there everything is
about sets of bits.

* `uallocTryBlock_exact` says for every bitmap what that comes to.
* `UReach` is every history of `ualloc_try_block` and `mark_bits_free`, starting from an empty
  bitmap, and `UInv` what holds throughout: the bits set are those of the blocks handed out and not
  yet given back, each of these is a run of its own, and no byte outside the bitmap has changed.
* `ufree` is not the inverse of `ualloc`.  It rounds the address where it should round the size, so
  that it starts at the wrong bit unless the block is the first one of user memory, and at the right
  bit it clears as many bits as the unrounded size gives.  `ufree_undoes_iff` says exactly when that
  comes to the same thing.
* For which sizes `ualloc` keeps its promise at all is `ualloc_enough_iff`.  Above a gigabyte the size
  rounded up is negative or zero, and either is taken for a size below one block.
-/

set_option autoImplicit false

namespace RiscyOS

open Memory Bitmap

/-! ## The scan -/

/-- The `k` bits from `s` on are clear. -/
def Run (m : Bits) (s k : Int) : Prop := ∀ b, s ≤ b → b < s + k → test m b = false

/-- The answer of a search for the first run of `k` clear bits between `lo` and `hi`. -/
def FirstRun (m : Bits) (k lo hi : Int) : Option Int → Prop
  | some s => 1 ≤ k ∧ lo ≤ s ∧ s + k ≤ hi ∧ Run m s k ∧ ∀ s', lo ≤ s' → s' < s → ¬ Run m s' k
  | none => 1 ≤ k → ∀ s, lo ≤ s → s + k ≤ hi → ¬ Run m s k

/-- A run does not start where it would have to cross a bit that is set. -/
theorem FirstRun.skip {m : Bits} {k lo lo' hi : Int} {r : Option Int} (h : FirstRun m k lo' hi r)
    (hle : lo ≤ lo') (hskip : 1 ≤ k → ∀ s, lo ≤ s → s < lo' → ¬ Run m s k) :
    FirstRun m k lo hi r := by
  cases r with
  | some s =>
    obtain ⟨hk, hlo, hhi, hrun, hfirst⟩ := h
    refine ⟨hk, hle.trans hlo, hhi, hrun, fun s' hs' hlt => ?_⟩
    rcases lt_or_ge s' lo' with hs | hs
    · exact hskip hk s' hs' hs
    · exact hfirst s' hs hlt
  | none =>
    intro hk s hs hhi
    rcases lt_or_ge s lo' with hlt | hge
    · exact hskip hk s hs hlt
    · exact h hk s hge hhi

/-- **The loop**: with `z` clear bits before bit `i`, and fewer than it wants, it finds the first
run that starts with them or later. -/
theorem findRun_firstRun (m : Bits) (k : Int) (n : Nat) (i z st : Int) (hz : 0 ≤ z)
    (hst : z ≠ 0 → st = i - z) (hrun : Run m (i - z) z) (hk : 1 ≤ k → z < k) :
    FirstRun m k (i - z) (i + n) (findRun m k n i z st) := by
  induction n generalizing i z st with
  | zero =>
    intro h1 s hs hhi
    have := hk h1
    rw [Nat.cast_zero] at hhi
    omega
  | succ n ih =>
    rw [findRun]
    have hstart : (if z = 0 then i else st) = i - z := by
      split
      · omega
      · exact hst ‹_›
    by_cases hclear : test m i = false
    · -- one more clear bit
      have hrun' : Run m (i - z) (z + 1) := by
        intro b hb hlt
        rcases eq_or_ne b i with rfl | hne
        · exact hclear
        · exact hrun b hb (by omega)
      rw [if_pos hclear, hstart]
      by_cases heq : z + 1 = k
      · rw [if_pos heq]
        exact ⟨by omega, le_rfl, by omega, heq ▸ hrun', fun s' hs' hlt => by omega⟩
      · have h := ih (i + 1) (z + 1) (i - z) (by omega) (fun _ => by omega)
          (by rwa [add_sub_add_right_eq_sub]) (fun h1 => by have := hk h1; omega)
        rw [add_sub_add_right_eq_sub] at h
        rwa [if_neg heq, Nat.cast_succ, add_comm (n : Int), ← add_assoc]
    · -- the count starts again
      have h := ih (i + 1) 0 st le_rfl (fun h => absurd rfl h)
        (fun b hb hlt => by omega) (fun h1 => by omega)
      rw [sub_zero, add_assoc, add_comm 1 (n : Int)] at h
      rw [if_neg hclear]
      refine FirstRun.skip h (by omega) fun h1 s hs hlt hrun => hclear (hrun i ?_ ?_)
      · omega
      · have := hk h1
        omega

/-- **`ualloc_try_block`**: it takes the first run that is long enough, and leaves the bitmap alone
if there is none. -/
theorem uallocTryBlock_cases (k : Int) (m : Bits) :
    (∃ s, 1 ≤ k ∧ 0 ≤ s ∧ s + k ≤ numBlocks ∧ Run m s k ∧ (∀ s', 0 ≤ s' → s' < s → ¬ Run m s' k) ∧
      uallocTryBlock k m = (blockAddr s, markBitsUsed s k m)) ∨
    ((1 ≤ k → ∀ s, 0 ≤ s → s + k ≤ numBlocks → ¬ Run m s k) ∧ uallocTryBlock k m = (null, m)) := by
  have h := findRun_firstRun m k numBlocks 0 0 (-1) le_rfl (fun h => absurd rfl h)
    (fun b hb hlt => by omega) (fun h1 => by omega)
  rw [sub_zero, zero_add] at h
  rw [uallocTryBlock]
  cases hr : findRun m k numBlocks 0 0 (-1) with
  | some s =>
    rw [hr] at h
    obtain ⟨hk, hlo, hhi, hrun, hfirst⟩ := h
    exact Or.inl ⟨s, hk, hlo, hhi, hrun, hfirst, rfl⟩
  | none =>
    rw [hr] at h
    exact Or.inr ⟨h, rfl⟩

/-! ## Blocks -/

/-- The bit of the block at an address, as callers of `mark_bits_free` compute it. -/
def blockBit (p : Ptr) : Int := ((p - userRamStart) / minBlockSize).toNat

theorem blockAddr_toNat {s : Int} (h0 : 0 ≤ s) (hlt : s < numBlocks) :
    ((blockAddr s).toNat : Int) = 0x40000 + 64 * s := by
  obtain ⟨n, rfl⟩ := Int.eq_ofNat_of_zero_le h0
  rw [numBlocks_eq] at hlt
  rw [blockAddr, BitVec.toNat_add, BitVec.toNat_mul, BitVec.ofInt_natCast, BitVec.toNat_ofNat]
  change (((0x40000 + (n % 2 ^ 32) * 64 % 2 ^ 32) % 2 ^ 32 : Nat) : Int) = _
  omega

theorem blockAddr_ne_null {s : Int} (h0 : 0 ≤ s) (hlt : s < numBlocks) : blockAddr s ≠ null := by
  intro h
  have haddr := blockAddr_toNat h0 hlt
  rw [h] at haddr
  change (0 : Int) = _ at haddr
  omega

/-- The bit of the block that an address is in. -/
theorem blockBit_eq {p : Ptr} (hp : 0x40000 ≤ p.toNat) :
    blockBit p = ((p.toNat - 0x40000) / 64 : Nat) := by
  have hsub : (p - userRamStart).toNat = p.toNat - 0x40000 := by
    rw [BitVec.toNat_sub]
    change (2 ^ 32 - 0x40000 + p.toNat) % 2 ^ 32 = _
    have := p.isLt
    omega
  rw [blockBit, BitVec.toNat_udiv, hsub]
  rfl

theorem blockBit_blockAddr {s : Int} (h0 : 0 ≤ s) (hlt : s < numBlocks) :
    blockBit (blockAddr s) = s := by
  have haddr := blockAddr_toNat h0 hlt
  rw [blockBit_eq (by omega)]
  omega

/-! ## Histories -/

/-- The bitmap, and the blocks handed out and not yet given back, each with the number of bits it
was asked for. -/
structure UState where
  allocBitmap : Bits
  live : List (Ptr × Int)

namespace UState

/-- A call of `ualloc_try_block`. -/
def alloc (k : Int) (s : UState) : UState :=
  let r := uallocTryBlock k s.allocBitmap
  ⟨r.2, if r.1 = null then s.live else (r.1, k) :: s.live⟩

/-- A call of `mark_bits_free` for the block at `p`. -/
def free (p : Ptr) (k : Int) (s : UState) : UState :=
  ⟨markBitsFree (blockBit p) k s.allocBitmap, s.live.erase (p, k)⟩

end UState

/-- The states reached from an all-zero bitmap by calls of `ualloc_try_block` and of
`mark_bits_free` on live blocks.  `m` is the memory at the start. -/
inductive UReach (m : Bits) : UState → Prop
  | init (hzero : ∀ i : Int, 0 ≤ i → i < allocArrayByteSize → m i = 0) : UReach m ⟨m, []⟩
  | alloc {s : UState} (k : Int) (hs : UReach m s) : UReach m (s.alloc k)
  | free {s : UState} {p : Ptr} {k : Int} (hs : UReach m s) (hlive : (p, k) ∈ s.live) :
      UReach m (s.free p k)

/-- The bits of a block. -/
def blockBits (r : Ptr × Int) : Set Int := Set.Ico (blockBit r.1) (blockBit r.1 + r.2)

/-- The bytes of a block. -/
def blockBytes (r : Ptr × Int) : Set Int := Set.Ico r.1.toNat (r.1.toNat + 64 * r.2)

/-- The bits of `alloc_bitmap` that are set. -/
def usedBits (m : Bits) : Set Int := {b | 0 ≤ b ∧ b < numBlocks ∧ test m b = true}

/-- A block as `ualloc_try_block` hands it out. -/
structure IsBlock (r : Ptr × Int) : Prop where
  addr : (r.1.toNat : Int) = 0x40000 + 64 * blockBit r.1
  nonneg : 0 ≤ blockBit r.1
  pos : 1 ≤ r.2
  le : blockBit r.1 + r.2 ≤ numBlocks

/-- **The invariant** of the bitmap `s.allocBitmap`, which was `m` at the start. -/
structure UInv (m : Bits) (s : UState) : Prop where
  bits : usedBits s.allocBitmap = ⋃ r ∈ s.live, blockBits r
  blocks : ∀ r ∈ s.live, IsBlock r
  apart : s.live.Pairwise fun r r' => Disjoint (blockBits r) (blockBits r')
  frame : ∀ i : Int, ¬ (0 ≤ i ∧ i < allocArrayByteSize) → s.allocBitmap i = m i

theorem isBlock_blockAddr {s k : Int} (h0 : 0 ≤ s) (hk : 1 ≤ k) (hle : s + k ≤ numBlocks) :
    IsBlock (blockAddr s, k) := by
  have hbit : blockBit (blockAddr s) = s := blockBit_blockAddr h0 (by omega)
  refine ⟨?_, ?_, hk, ?_⟩ <;> dsimp only <;> rw [hbit]
  · exact blockAddr_toNat h0 (by omega)
  · exact h0
  · exact hle

/-- Disjoint bits are disjoint bytes. -/
theorem IsBlock.disjoint_bytes {r r' : Ptr × Int} (h : IsBlock r) (h' : IsBlock r')
    (hd : Disjoint (blockBits r) (blockBits r')) : Disjoint (blockBytes r) (blockBytes r') := by
  rw [Set.disjoint_left] at hd ⊢
  rintro x ⟨hx, hx'⟩ ⟨hy, hy'⟩
  have := h.addr
  have := h'.addr
  refine hd (a := (x - 0x40000) / 64) ⟨?_, ?_⟩ ⟨?_, ?_⟩ <;> omega

/-- Marking a run adds its bits to those set. -/
theorem usedBits_markBitsUsed {m : Bits} {s k : Int} (h0 : 0 ≤ s) (hle : s + k ≤ numBlocks) :
    usedBits (markBitsUsed s k m) = Set.Ico s (s + k) ∪ usedBits m := by
  ext b
  simp only [usedBits, Set.mem_ofPred_eq, Set.mem_union, Set.mem_Ico]
  constructor
  · rintro ⟨hb, hlt, htest⟩
    rcases (test_forRange_set h0 k.toNat hb).1 htest with h | h
    · exact Or.inl (by omega)
    · exact Or.inr ⟨hb, hlt, h⟩
  · rintro (⟨hs, hlt⟩ | ⟨hb, hlt, htest⟩)
    · exact ⟨by omega, by omega, (test_forRange_set h0 k.toNat (by omega)).2 (Or.inl (by omega))⟩
    · exact ⟨hb, hlt, (test_forRange_set h0 k.toNat hb).2 (Or.inr htest)⟩

/-- Clearing a run takes its bits away. -/
theorem usedBits_markBitsFree {m : Bits} {s k : Int} (h0 : 0 ≤ s) :
    usedBits (markBitsFree s k m) = usedBits m \ Set.Ico s (s + k) := by
  ext b
  simp only [usedBits, Set.mem_ofPred_eq, Set.mem_sdiff, Set.mem_Ico]
  constructor
  · rintro ⟨hb, hlt, htest⟩
    obtain ⟨hout, h⟩ := (test_forRange_clear h0 k.toNat hb).1 htest
    exact ⟨⟨hb, hlt, h⟩, by omega⟩
  · rintro ⟨⟨hb, hlt, htest⟩, hout⟩
    exact ⟨hb, hlt, (test_forRange_clear h0 k.toNat hb).2 ⟨by omega, htest⟩⟩

/-- A run inside the bitmap is in bytes inside the array. -/
theorem byte_of_bit {s k b i : Int} (h0 : 0 ≤ s) (hle : s + k ≤ numBlocks) (hb : s ≤ b)
    (hlt : b < s + k.toNat) (hi : ¬ (0 ≤ i ∧ i < allocArrayByteSize)) : i ≠ b / 8 := by
  have hsize : (allocArrayByteSize : Int) = 512 := rfl
  rw [numBlocks_eq] at hle
  rintro rfl
  refine hi ⟨?_, ?_⟩ <;> omega

namespace UInv

variable {m : Bits} {s : UState}

theorem init (hzero : ∀ i : Int, 0 ≤ i → i < allocArrayByteSize → m i = 0) : UInv m ⟨m, []⟩ := by
  refine ⟨?_, fun r hr => absurd hr List.not_mem_nil, List.Pairwise.nil, fun _ _ => rfl⟩
  rw [Set.eq_empty_of_forall_notMem (s := usedBits m)]
  · simp
  · rintro b ⟨hb, hlt, htest⟩
    have hsize : (allocArrayByteSize : Int) = 512 := rfl
    rw [numBlocks_eq] at hlt
    rw [test_eq hb, hzero (b / 8) (by omega) (by omega)] at htest
    simp at htest

/-- A free run meets no live block. -/
theorem disjoint_run (h : UInv m s) {st k : Int} (hrun : Run s.allocBitmap st k) {r : Ptr × Int} (hr : r ∈ s.live) :
    Disjoint (Set.Ico st (st + k)) (blockBits r) := by
  rw [Set.disjoint_left]
  rintro b ⟨hb, hlt⟩ hbr
  have hused : b ∈ usedBits s.allocBitmap := by
    rw [h.bits]
    exact Set.mem_biUnion hr hbr
  exact Bool.false_ne_true ((hrun b hb hlt).symm.trans hused.2.2)

theorem alloc (h : UInv m s) (k : Int) : UInv m (s.alloc k) := by
  rcases uallocTryBlock_cases k s.allocBitmap with ⟨st, hk, h0, hle, hrun, -, heq⟩ | ⟨-, heq⟩
  · have hblock := isBlock_blockAddr h0 hk hle
    have hbit : blockBit (blockAddr st) = st := blockBit_blockAddr h0 (by omega)
    rw [UState.alloc, heq, if_neg (blockAddr_ne_null h0 (by omega))]
    refine ⟨?_, ?_, ?_, fun i hi => ?_⟩ <;> dsimp only
    · rw [usedBits_markBitsUsed h0 hle, h.bits]
      simp [blockBits, hbit]
    · intro r hr
      rcases List.mem_cons.1 hr with rfl | hr
      · exact hblock
      · exact h.blocks r hr
    · refine List.pairwise_cons.2 ⟨fun r hr => ?_, h.apart⟩
      rw [blockBits, hbit]
      exact h.disjoint_run hrun hr
    · rw [markBitsUsed, forRange_of_byte_notMem (fun _ _ _ => set_of_ne) h0 fun b hb hlt =>
        byte_of_bit h0 hle hb hlt hi]
      exact h.frame i hi
  · rw [UState.alloc, heq, if_pos rfl]
    exact h

theorem free (h : UInv m s) {p : Ptr} {k : Int} (hlive : (p, k) ∈ s.live) :
    UInv m (s.free p k) := by
  have hperm := List.perm_cons_erase hlive
  have hblock := h.blocks _ hlive
  have hsub : ∀ r ∈ s.live.erase (p, k), r ∈ s.live := fun r hr => List.mem_of_mem_erase hr
  obtain ⟨hp, hrest⟩ := List.pairwise_cons.1
    ((hperm.pairwise_iff fun hd => Disjoint.symm hd).1 h.apart)
  refine ⟨?_, fun r hr => h.blocks r (hsub r hr), hrest, fun i hi => ?_⟩
  · have hunion : ⋃ r ∈ s.live, blockBits r =
        blockBits (p, k) ∪ ⋃ r ∈ s.live.erase (p, k), blockBits r := by
      ext b
      simp only [Set.mem_iUnion, Set.mem_union, hperm.mem_iff, List.mem_cons, exists_prop,
        exists_eq_or_imp]
    have hapart : Disjoint (⋃ r ∈ s.live.erase (p, k), blockBits r) (blockBits (p, k)) := by
      simp only [Set.disjoint_iUnion_left]
      exact fun r hr => (hp r hr).symm
    rw [UState.free]
    dsimp only
    rw [usedBits_markBitsFree hblock.nonneg, h.bits, hunion]
    exact Set.union_sdiff_cancel_left (Set.disjoint_iff.1 hapart.symm)
  · rw [UState.free]
    dsimp only
    rw [markBitsFree, forRange_of_byte_notMem (fun _ _ _ => clear_of_ne) hblock.nonneg
      fun b hb hlt => byte_of_bit hblock.nonneg hblock.le hb hlt hi]
    exact h.frame i hi

end UInv

theorem UReach.inv {m : Bits} {s : UState} (h : UReach m s) : UInv m s := by
  induction h with
  | init hzero => exact .init hzero
  | alloc k _ ih => exact ih.alloc k
  | free _ hlive ih => exact ih.free hlive

/-- **The bitmap is exact**: in every reachable state the bits set are those of the live blocks,
which are disjoint, and the live blocks are aligned, disjoint pieces of user memory. -/
theorem ubitmap_exact (m : Bits) (s : UState) (h : UReach m s) :
    (usedBits s.allocBitmap = ⋃ r ∈ s.live, blockBits r) ∧
    (s.live.Pairwise fun r r' => Disjoint (blockBits r) (blockBits r')) ∧
    (∀ r ∈ s.live, 1 ≤ r.2 ∧ 0x40000 ≤ r.1.toNat ∧ r.1.toNat < 0x80000 ∧ r.1.toNat % 64 = 0 ∧
      r.1.toNat + 64 * r.2 ≤ 0x80000) ∧
    (s.live.Pairwise fun r r' => Disjoint (blockBytes r) (blockBytes r')) ∧
    (∀ i : Int, ¬ (0 ≤ i ∧ i < allocArrayByteSize) → s.allocBitmap i = m i) := by
  have hinv := h.inv
  refine ⟨hinv.bits, hinv.apart, fun r hr => ?_, ?_, hinv.frame⟩
  · have hblock := hinv.blocks r hr
    have haddr := hblock.addr
    have hnonneg := hblock.nonneg
    have hpos := hblock.pos
    have hle := hblock.le
    rw [numBlocks_eq] at hle
    refine ⟨hpos, ?_, ?_, ?_, ?_⟩ <;> omega
  · refine List.Pairwise.imp_of_mem (fun hr hr' hd => ?_) hinv.apart
    exact (hinv.blocks _ hr).disjoint_bytes (hinv.blocks _ hr') hd

/-- An empty bitmap. -/
def emptyBitmap : Bits := fun _ => 0

/-- Ten blocks, three blocks after them, and the ten given back. -/
def straddling : UState := (((UState.mk emptyBitmap []).alloc 10).alloc 3).free 0x40000 10

theorem straddling_reach : UReach emptyBitmap straddling :=
  (((UReach.init fun _ _ _ => rfl).alloc 10).alloc 3).free (by decide +kernel)

/-- The three blocks straddle two bytes of the bitmap, and bits 10 to 12 are what is left. -/
theorem ubitmap_exact_straddling :
    straddling.live = [(0x40280, 3)] ∧ usedBits straddling.allocBitmap = Set.Ico 10 13 := by
  have hlive : straddling.live = [(0x40280, 3)] := by decide +kernel
  have hbits := (ubitmap_exact emptyBitmap straddling straddling_reach).1
  rw [hlive] at hbits
  refine ⟨hlive, hbits.trans ?_⟩
  have hblock : blockBits (0x40280, 3) = Set.Ico 10 13 := congrArg (fun b => Set.Ico b (b + 3))
    (show blockBit 0x40280 = 10 by decide)
  rw [← hblock]
  simp

/-! ## First fit -/

/-- Where a run of `k` clear bits starts. -/
def freeRuns (m : Bits) (k : Int) : Set Int := {s | 0 ≤ s ∧ s + k ≤ numBlocks ∧ Run m s k}

/-- **`ualloc_try_block` is exact first fit.**  It returns null with the bitmap as it was if and only if
no bits are asked for, or a negative number of them, or there is no run of as many clear bits.
Otherwise it returns the address of the first of the runs, sets the bits of that, and changes no other
bit and no byte outside the bitmap. -/
theorem uallocTryBlock_exact (k : Int) (m : Bits) :
    (uallocTryBlock k m = (null, m) ↔ k ≤ 0 ∨ freeRuns m k = ∅) ∧
    (0 < k → (freeRuns m k).Nonempty → ∃ s, IsLeast (freeRuns m k) s ∧
      ((uallocTryBlock k m).1.toNat : Int) = 0x40000 + 64 * s ∧
      (∀ b, 0 ≤ b → (test (uallocTryBlock k m).2 b = true ↔
        s ≤ b ∧ b < s + k ∨ test m b = true)) ∧
      ∀ i : Int, ¬ (0 ≤ i ∧ i < allocArrayByteSize) → (uallocTryBlock k m).2 i = m i) := by
  rcases uallocTryBlock_cases k m with ⟨s, hk, h0, hle, hrun, hfirst, heq⟩ | ⟨hnone, heq⟩
  · have hmem : s ∈ freeRuns m k := ⟨h0, hle, hrun⟩
    have hlt : s < numBlocks := by omega
    refine ⟨iff_of_false (fun h => ?_) ?_, fun _ _ => ⟨s, ⟨hmem, ?_⟩, ?_, fun b hb => ?_, fun i hi => ?_⟩⟩
    · exact blockAddr_ne_null h0 hlt (congrArg Prod.fst (heq.symm.trans h))
    · rintro (h | h)
      · omega
      · exact Set.notMem_empty s (h ▸ hmem)
    · rintro t ⟨ht, -, htrun⟩
      by_contra hts
      exact hfirst t ht (Int.not_le.1 hts) htrun
    · rw [heq]
      exact blockAddr_toNat h0 hlt
    · rw [heq]
      refine (test_forRange_set h0 k.toNat hb).trans (or_congr_left ?_)
      omega
    · rw [heq]
      exact forRange_of_byte_notMem (fun _ _ _ => set_of_ne) h0 fun b hb hlt =>
        byte_of_bit h0 hle hb hlt hi
  · have hempty : 0 < k → freeRuns m k = ∅ := fun hk =>
      Set.eq_empty_of_forall_notMem fun s hs => hnone hk s hs.1 hs.2.1 hs.2.2
    refine ⟨iff_of_true heq ?_, fun hk hne => absurd (hempty hk) hne.ne_empty⟩
    rcases Int.lt_or_le 0 k with hk | hk
    · exact Or.inr (hempty hk)
    · exact Or.inl hk

/-- Behind ten blocks that are given back and three that are not, four blocks go to the front. -/
theorem uallocTryBlock_exact_straddling : ∃ s, IsLeast (freeRuns straddling.allocBitmap 4) s ∧
    ((uallocTryBlock 4 straddling.allocBitmap).1.toNat : Int) = 0x40000 + 64 * s ∧ s = 0 := by
  have hzero : (0 : Int) ∈ freeRuns straddling.allocBitmap 4 := by
    refine ⟨le_rfl, by decide, fun b hb hlt => ?_⟩
    obtain ⟨n, rfl⟩ := Int.eq_ofNat_of_zero_le hb
    have hn : ∀ n : Fin 4, test straddling.allocBitmap (n : Nat) = false := by decide +kernel
    exact hn ⟨n, by omega⟩
  obtain ⟨s, hs, haddr, -⟩ :=
    (uallocTryBlock_exact 4 straddling.allocBitmap).2 (by decide) ⟨0, hzero⟩
  exact ⟨s, hs, haddr, le_antisymm (hs.2 hzero) hs.1.1⟩

/-! ## Giving memory back -/

/-- The blocks `ualloc` marks for `n` bytes. -/
def allocatedBits (n : Nat) : Nat := max 64 (2 ^ (n - 1).size) / 64

/-- The blocks `ufree` clears for `n` bytes. -/
def releasedBits (n : Nat) : Nat := max 64 n / 64 + max 64 n % 64

/-- What `ualloc` asks for. -/
theorem uallocBits_eq {n : Word} (hpos : 1 ≤ n.toNat) (hle : n.toNat ≤ 2 ^ 30) :
    (sizeToBits (roundNextPowerOfTwo n)).toInt = allocatedBits n.toNat := by
  have hsize : (n.toNat - 1).size ≤ 30 := Nat.size_le.2 (by omega)
  have hpow : 2 ^ (n.toNat - 1).size ≤ 2 ^ 30 := Nat.pow_le_pow_right (by decide) hsize
  have hround := roundNextPowerOfTwo_eq hpos (by omega)
  rw [sizeToBits_toInt, hround, allocatedBits]
  rcases Nat.lt_or_ge (n.toNat - 1).size 6 with h | h
  · have : 2 ^ (n.toNat - 1).size < 2 ^ 6 := Nat.pow_lt_pow_right (by decide) h
    rw [if_neg (by omega), Nat.max_eq_left (by omega)]
  · -- a power of two from 64 on leaves no remainder
    have hdvd : 2 ^ 6 ∣ 2 ^ (n.toNat - 1).size := Nat.pow_dvd_pow 2 h
    have : 2 ^ 6 ≤ 2 ^ (n.toNat - 1).size := Nat.le_of_dvd (Nat.two_pow_pos _) hdvd
    have hmod : 2 ^ (n.toNat - 1).size % 64 = 0 := Nat.mod_eq_zero_of_dvd hdvd
    rw [if_pos ⟨by omega, by omega⟩, Nat.max_eq_right (by omega), hmod, Nat.add_zero]

/-- The blocks are enough for what was asked for. -/
theorem le_allocatedBits (n : Nat) : n ≤ 64 * allocatedBits n := by
  have hlt : n - 1 < 2 ^ (n - 1).size := Nat.lt_size_self (n - 1)
  rw [allocatedBits]
  rcases Nat.lt_or_ge (n - 1).size 6 with h | h
  · have : 2 ^ (n - 1).size ≤ 2 ^ 6 := Nat.pow_le_pow_right (by decide) h.le
    omega
  · have hdvd : 2 ^ 6 ∣ 2 ^ (n - 1).size := Nat.pow_dvd_pow 2 h
    omega

/-- **What `ualloc` hands out** is a run of free blocks, and it marks these. -/
theorem ualloc_spec {n : Word} {m : Bits} (hpos : 1 ≤ n.toNat) (hle : n.toNat ≤ 2 ^ 30)
    (hp : (ualloc n m).1 ≠ null) :
    ∃ s : Int, 0 ≤ s ∧ s + allocatedBits n.toNat ≤ numBlocks ∧ Run m s (allocatedBits n.toNat) ∧
      ualloc n m = (blockAddr s, markBitsUsed s (allocatedBits n.toNat) m) := by
  have hn : n ≠ 0 := by
    rintro rfl
    exact absurd hpos (by decide)
  rw [ualloc, if_neg hn, uallocBits_eq hpos hle] at hp ⊢
  rcases uallocTryBlock_cases (allocatedBits n.toNat) m with ⟨s, -, h0, hend, hrun, -, heq⟩ | ⟨-, heq⟩
  · exact ⟨s, h0, hend, hrun, heq⟩
  · exact absurd (congrArg Prod.fst heq) hp

/-- What `ufree` clears. -/
theorem ufreeBits_eq {n : Word} (hle : n.toNat ≤ 2 ^ 18) :
    (sizeToBits n).toInt = releasedBits n.toNat := by
  rw [sizeToBits_toInt, releasedBits]
  by_cases h : 64 ≤ n.toNat
  · rw [if_pos ⟨h, by omega⟩, Nat.max_eq_right h]
  · rw [if_neg fun hn => h hn.1, Nat.max_eq_left (by omega)]

theorem allocatedBits_pos (n : Nat) : 1 ≤ allocatedBits n := by
  rw [allocatedBits]
  omega

/-- The bit `ufree` starts at: rounding leaves only the first address of user memory as it is. -/
theorem ufreeStart_eq {s : Int} (h0 : 0 ≤ s) (hlt : s < numBlocks) :
    ((roundNextPowerOfTwo (blockAddr s) - userRamStart).sdiv minBlockSize).toInt =
      if s = 0 then (0 : Int) else numBlocks := by
  rcases eq_or_ne s 0 with rfl | hs
  · decide
  · have haddr := blockAddr_toNat h0 hlt
    rw [numBlocks_eq] at hlt
    have hsize : ((blockAddr s).toNat - 1).size = 19 := by
      refine le_antisymm (Nat.size_le.2 (by omega)) (Nat.lt_size.2 ?_)
      omega
    have hround : roundNextPowerOfTwo (blockAddr s) = 0x80000 := by
      apply BitVec.eq_of_toNat_eq
      rw [roundNextPowerOfTwo_eq (by omega) (by omega), hsize]
      rfl
    rw [hround, if_neg hs]
    decide

/-- Setting the first `k` bits, which were clear, and clearing the first `c`. -/
theorem clear_set_eq_iff {m : Bits} {k c : Nat} (hrun : Run m 0 k) :
    forRange clear 0 c (forRange set 0 k m) = m ↔
      k ≤ c ∧ ∀ b : Int, 0 ≤ b → b < c → test m b = false := by
  constructor
  · intro hundo
    have hclear : ∀ b : Int, 0 ≤ b → b < c → test m b = false := by
      intro b hb hlt
      rw [← Bool.not_eq_true, ← hundo, test_forRange_clear le_rfl c hb]
      exact fun h => h.1 ⟨hb, by omega⟩
    refine ⟨?_, hclear⟩
    by_contra hlt
    -- bit `c` was clear, is set, and is not cleared
    have hset : test m c = true := by
      rw [← hundo, test_forRange_clear le_rfl c (by omega), test_forRange_set le_rfl k (by omega)]
      exact ⟨by omega, Or.inl ⟨by omega, by omega⟩⟩
    exact Bool.false_ne_true ((hrun c (by omega) (by omega)).symm.trans hset)
  · rintro ⟨hkc, hclear⟩
    refine ext_test (fun i hi => ?_) fun b hb => ?_
    · have hi' : ∀ n : Nat, ∀ b : Int, 0 ≤ b → b < 0 + n → i ≠ b / 8 := fun n b hb _ => by omega
      rw [forRange_of_byte_notMem (fun _ _ _ h => clear_of_ne h) le_rfl (hi' c),
        forRange_of_byte_notMem (fun _ _ _ h => set_of_ne h) le_rfl (hi' k)]
    · rw [Bool.eq_iff_iff, test_forRange_clear le_rfl c hb, test_forRange_set le_rfl k hb]
      constructor
      · rintro ⟨hout, hin | h⟩
        · exact absurd ⟨hin.1, by omega⟩ hout
        · exact h
      · intro h
        refine ⟨fun hin => ?_, Or.inr h⟩
        exact Bool.false_ne_true ((hclear b hb (by omega)).symm.trans h)

/-- A request that fails marks nothing. -/
theorem ualloc_null {m : Bits} {n : Word} (h : (ualloc n m).1 = null) : (ualloc n m).2 = m := by
  rw [ualloc] at h ⊢
  by_cases hn : n = 0
  · rw [if_pos hn] at h
    exact absurd h (show (1 : Ptr) ≠ null by decide)
  rw [if_neg hn] at h ⊢
  rcases uallocTryBlock_cases (sizeToBits (roundNextPowerOfTwo n)).toInt m with
    ⟨s, hk, h0, hend, -, -, heq⟩ | ⟨-, heq⟩
  · have haddr := blockAddr_toNat h0 (by omega)
    rw [heq] at h
    have hzero : (blockAddr s).toNat = 0 := congrArg BitVec.toNat (show blockAddr s = null from h)
    omega
  · rw [heq]

/-- **When `ufree` undoes `ualloc`**, for any size: the block has to be the first one of user memory, and
what is cleared has to cover it and to run over nothing in use. -/
theorem ufree_restores_iff (m : Bits) (n : Word) (hn : n ≠ 0) (hp : (ualloc n m).1 ≠ null) :
    ufree (ualloc n m).1 n (ualloc n m).2 = m ↔
      (sizeToBits (roundNextPowerOfTwo n)).toInt ≤ (sizeToBits n).toInt ∧
        ∀ b : Int, 0 ≤ b → b < (sizeToBits n).toInt → test m b = false := by
  have hc : ((sizeToBits n).toInt.toNat : Int) = (sizeToBits n).toInt := by
    rw [Int.toNat_of_nonneg]
    rw [sizeToBits_toInt]
    split <;> omega
  rw [ualloc, if_neg hn] at hp ⊢
  rcases uallocTryBlock_cases (sizeToBits (roundNextPowerOfTwo n)).toInt m with
    ⟨s, hk, h0, hend, hrun, hfirst, heq⟩ | ⟨-, heq⟩
  · rw [heq, ufree, if_neg hn, ufreeStart_eq h0 (by omega), markBitsFree, markBitsUsed, ← hc]
    generalize (sizeToBits (roundNextPowerOfTwo n)).toInt = k at hk hend hrun hfirst
    generalize (sizeToBits n).toInt.toNat = c
    obtain ⟨k, rfl⟩ := Int.eq_ofNat_of_zero_le (by omega : 0 ≤ k)
    rw [Int.toNat_natCast, Int.toNat_natCast]
    rcases eq_or_ne s 0 with rfl | hs
    · rw [if_pos rfl, Nat.cast_le]
      exact clear_set_eq_iff hrun
    · -- the run stays marked, and there was none at the start of the bitmap
      rw [if_neg hs]
      refine iff_of_false (fun hundo => ?_) fun ⟨hkc, hclear⟩ => ?_
      · have hset : test m s = true := by
          rw [← hundo, test_forRange_clear (by omega) _ h0, test_forRange_set h0 _ h0]
          exact ⟨by omega, Or.inl ⟨le_rfl, by omega⟩⟩
        exact Bool.false_ne_true ((hrun s le_rfl (by omega)).symm.trans hset)
      · exact hfirst 0 le_rfl (by omega) fun b hb hlt => hclear b hb (by omega)
  · exact absurd (congrArg Prod.fst heq) hp

/-- **When `ufree` undoes `ualloc`**: the block has to be the first one of user memory, and the
number of blocks that the unrounded size gives has to cover it and to run over nothing in use. -/
theorem ufree_undoes_iff (m : Bits) (n : Word) (hpos : 1 ≤ n.toNat) (hle : n.toNat ≤ 2 ^ 18)
    (hp : (ualloc n m).1 ≠ null) :
    ufree (ualloc n m).1 n (ualloc n m).2 = m ↔
      allocatedBits n.toNat ≤ releasedBits n.toNat ∧
        ∀ b : Int, 0 ≤ b → b < releasedBits n.toNat → test m b = false := by
  have hn : n ≠ 0 := by
    rintro rfl
    exact absurd hpos (by decide)
  rw [ufree_restores_iff m n hn hp, uallocBits_eq hpos (hle.trans (by decide)), ufreeBits_eq hle, Nat.cast_le]

/-- Sixty-four bytes at the start of user memory come back as they were taken. -/
theorem ufree_undoes_first_block :
    (ualloc 64 emptyBitmap).1 = 0x40000 ∧
      ufree (ualloc 64 emptyBitmap).1 64 (ualloc 64 emptyBitmap).2 = emptyBitmap :=
  ⟨by decide +kernel,
    (ufree_undoes_iff emptyBitmap 64 (by decide) (by decide) (by decide +kernel)).2
      ⟨by decide, fun b hb _ => by rw [test_eq hb]; simp [emptyBitmap]⟩⟩

/-- The second block of 64 bytes stays marked when it is given back. -/
theorem ufree_leaks_second_block :
    ¬ ∀ (m : Bits) (n : Word), 1 ≤ n.toNat → n.toNat ≤ 2 ^ 18 → (ualloc n m).1 ≠ null →
      ufree (ualloc n m).1 n (ualloc n m).2 = m := by
  intro h
  have hbyte := congrFun (h (ualloc 64 emptyBitmap).2 64 (by decide) (by decide)
    (by decide +kernel)) 0
  exact absurd hbyte (by decide +kernel)

/-! ## Requests of any size -/

/-- The block `b` has a byte between the addresses `lo` and `hi`. -/
def Covers (b lo hi : Int) : Prop := 0x40000 + 64 * b < hi ∧ lo < 0x40000 + 64 * (b + 1)

instance (b lo hi : Int) : Decidable (Covers b lo hi) := inferInstanceAs (Decidable (_ ∧ _))

/-- **What a caller expects of a request for `n` bytes**: null and no change, or an address in user
memory at a multiple of 64, from which on `n` bytes are covered by blocks of user memory that were all
free and are all marked. -/
def Enough (n : Word) (m : Bits) (r : Ptr × Bits) : Prop :=
  r = (null, m) ∨ r.1.toNat % 64 = 0 ∧ 0x40000 ≤ r.1.toNat ∧ r.1.toNat < 0x80000 ∧
    ∀ b : Int, 0 ≤ b → Covers b r.1.toNat (r.1.toNat + n.toNat) →
      b < numBlocks ∧ test m b = false ∧ test r.2 b = true

/-- Above a gigabyte a request is for one block. -/
theorem uallocBits_large {n : Word} (h : 2 ^ 30 < n.toNat) :
    (sizeToBits (roundNextPowerOfTwo n)).toInt = 1 := by
  have hlt := n.isLt
  have hge : 31 ≤ (n.toNat - 1).size := Nat.lt_size.2 (by omega)
  have hle : (n.toNat - 1).size ≤ 32 := Nat.size_le.2 (by omega)
  rw [sizeToBits_toInt, roundNextPowerOfTwo_toNat, toNat_sub_one (by omega), if_neg]
  · rfl
  · rcases (show (n.toNat - 1).size = 31 ∨ (n.toNat - 1).size = 32 by omega) with h | h <;> rw [h] <;>
      decide

/-- A run that is taken is what the caller expects, if it is long enough. -/
theorem enough_of_run {n : Word} {m : Bits} {s k : Int} (h0 : 0 ≤ s) (hk : 1 ≤ k)
    (hle : s + k ≤ numBlocks) (hrun : Run m s k) (hn : (n.toNat : Int) ≤ 64 * k) :
    Enough n m (blockAddr s, markBitsUsed s k m) := by
  have haddr := blockAddr_toNat h0 (by omega)
  rw [numBlocks_eq] at hle
  simp only [Enough]
  refine Or.inr ⟨by omega, by omega, by omega, fun b hb hcov => ?_⟩
  rw [Covers, haddr] at hcov
  refine ⟨by rw [numBlocks_eq]; omega, hrun b (by omega) (by omega), ?_⟩
  exact (test_forRange_set h0 k.toNat hb).2 (Or.inl (by omega))

/-- **Which requests `ualloc` gets right**: those from one byte to a gigabyte, and larger ones if there
is no free block at all. -/
theorem ualloc_enough_iff (n : Word) (m : Bits) : Enough n m (ualloc n m) ↔
    1 ≤ n.toNat ∧ n.toNat ≤ 2 ^ 30 ∨
      2 ^ 30 < n.toNat ∧ ∀ b : Int, 0 ≤ b → b < numBlocks → test m b = true := by
  by_cases hzero : n = 0
  · subst hzero
    rw [ualloc, if_pos rfl]
    refine iff_of_false ?_ ?_
    · rintro (h | ⟨h, -⟩)
      · exact absurd (congrArg Prod.fst h) (show (1 : Ptr) ≠ null by decide)
      · exact absurd h (show (1 : Ptr).toNat % 64 ≠ 0 by decide)
    · rintro (⟨h, -⟩ | ⟨h, -⟩)
      · exact absurd h (by decide)
      · exact absurd h (by decide)
  have hpos : 1 ≤ n.toNat := Nat.pos_of_ne_zero fun h => hzero (BitVec.eq_of_toNat_eq h)
  rw [ualloc, if_neg hzero]
  by_cases hle : n.toNat ≤ 2 ^ 30
  · refine iff_of_true ?_ (Or.inl ⟨hpos, hle⟩)
    rw [uallocBits_eq hpos hle]
    rcases uallocTryBlock_cases (allocatedBits n.toNat) m with ⟨s, hk, h0, hend, hrun, -, heq⟩ | ⟨-, heq⟩
    · rw [heq]
      exact enough_of_run h0 hk hend hrun (by exact_mod_cast le_allocatedBits n.toNat)
    · exact Or.inl heq
  · have hlt := Nat.not_le.1 hle
    rw [uallocBits_large hlt]
    rcases uallocTryBlock_cases 1 m with ⟨s, -, h0, hend, hrun, -, heq⟩ | ⟨hnone, heq⟩
    · -- one block is taken, and the bytes asked for run past the end of user memory
      rw [heq]
      have haddr := blockAddr_toNat h0 (by omega)
      rw [numBlocks_eq] at hend
      refine iff_of_false ?_ ?_
      · rintro (h | ⟨-, -, -, h⟩)
        · exact blockAddr_ne_null h0 (by rw [numBlocks_eq]; omega) (congrArg Prod.fst h)
        · have hcov : Covers numBlocks (blockAddr s).toNat ((blockAddr s).toNat + n.toNat) := by
            rw [Covers, haddr, numBlocks_eq]
            omega
          exact absurd (h numBlocks (Int.natCast_nonneg _) hcov).1 (lt_irrefl _)
      · rintro (⟨-, h⟩ | ⟨-, h⟩)
        · exact hle h
        · have hset := h s h0 (by rw [numBlocks_eq]; omega)
          rw [hrun s le_rfl (by omega)] at hset
          exact Bool.false_ne_true hset
    · refine iff_of_true (Or.inl heq) (Or.inr ⟨hlt, fun b hb hbn => ?_⟩)
      by_contra hfree
      refine hnone le_rfl b hb (by omega) fun c hc hc' => ?_
      obtain rfl : c = b := by omega
      simpa using hfree

/-- One byte more than a gigabyte, with nothing in use: it gets the first block of 64 bytes. -/
theorem ualloc_grants_one_block : (ualloc 0x40000001 emptyBitmap).1 = 0x40000 ∧
    ¬ Enough 0x40000001 emptyBitmap (ualloc 0x40000001 emptyBitmap) := by
  have haddr : (ualloc 0x40000001 emptyBitmap).1 = 0x40000 := by decide +kernel
  refine ⟨haddr, ?_⟩
  rintro (h | ⟨-, -, -, h⟩)
  · rw [h] at haddr
    exact absurd haddr (by decide)
  · rw [haddr] at h
    exact absurd (h numBlocks (by decide) (by decide)).1 (lt_irrefl _)

end RiscyOS
