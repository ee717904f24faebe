import RiscyOS.Fs.ElfSpec
import RiscyOS.Fs.Moves
import RiscyOS.Memory.UmemSpec

/-!
# Where a load writes

A program header says twice how large its segment is.  `ualloc` is asked for `p_memsz` bytes, as many
are cleared, and then `p_filesz` bytes are read into them; nothing compares the two.  Nor does the
loader notice that it was given `1` in answer to a request for no bytes, or one block in answer to a
request for more than a gigabyte, whose rounding overflows.

`SegmentFits` is what a header has to satisfy for the segment to stay in the blocks that `ualloc` has
marked for it: that the request is not too large, and that the contents are not larger than the
blocks, unless the file ends before they are.  `elf_confined` follows a load from its submission on,
through any completions in any state of the disk and with anything else going on in between: if every
segment fits, no byte is written outside its blocks.

The induction is on the run.  What is carried along (`LoadHolds`) depends on who is to be called next:
the loader, a read or a seek on its behalf, or a seek on behalf of that read.
-/

set_option autoImplicit false

namespace RiscyOS

open Memory Callback Bitmap

/-! ## Loads and the user allocator -/

/-- The bits that are set in `m'` and were not in `m`. -/
def newlyMarked (m m' : Bits) : Int → Bool := fun b => !test m b && test m' b

/-- An address in a block of user memory whose bit is one of `marked`. -/
def InBlocks (marked : Int → Bool) (a : Word) : Prop :=
  userRamStart.toNat ≤ a.toNat ∧ a.toNat < userRamStart.toNat + 64 * numBlocks ∧
    marked (blockBit a) = true

instance (marked : Int → Bool) : DecidablePred (InBlocks marked) := fun _ =>
  inferInstanceAs (Decidable (_ ∧ _ ∧ _))

/-- An address in the two headers that a loader's context holds. -/
def InHeaders (ctx : Ptr) (a : Word) : Prop := (a - elfHeader ctx).toNat < 84

instance (ctx : Ptr) : DecidablePred (InHeaders ctx) := fun _ => inferInstanceAs (Decidable (_ < _))

/-- A load on its way: what the callbacks go on with, the bitmap of user memory, and the bits that the
last call of `ualloc` by the load has set. -/
structure LoadSys where
  rx : Sector
  world : FsWorld
  action : FsAction
  allocBitmap : Bits
  marked : Int → Bool

/-- The program header that a loader has in its context. -/
def elfPhdr (w : FsWorld) (ctx : Ptr) : ElfPhdr := loadPhdr w.mem (elfPheader ctx)

/-- `elf_step` calls `ualloc`. -/
def CallsUalloc (k : FsClosure) (status : Int) (w : FsWorld) : Prop :=
  k.1 = .elfStep ∧ status = 0 ∧ (w.elfCtx k.2).state = .readPheader ∧
    (elfPhdr w k.2).pType = ptLoad ∧ w.kmallocRegions 0 ≠ null

instance (k : FsClosure) (status : Int) : DecidablePred (CallsUalloc k status) := fun _ =>
  inferInstanceAs (Decidable (_ ∧ _ ∧ _ ∧ _ ∧ _))

/-- `fs_read_step` copies a part of a segment. -/
def CopiesSegment (k : FsClosure) (status : Int) (w : FsWorld) : Prop :=
  k.1 = .fsReadStep ∧ status = 0 ∧ (w.readCtx k.2).state = .copyContents ∧
    (w.readCtx k.2).callback = .elfStep ∧ (w.elfCtx (w.readCtx k.2).ctx).state = .loadPcontent

instance (k : FsClosure) (status : Int) : DecidablePred (CopiesSegment k status) := fun _ =>
  inferInstanceAs (Decidable (_ ∧ _ ∧ _ ∧ _ ∧ _))

/-- `bytes_to_copy_in_sector`. -/
def bytesToCopy (currentByte bytesRemaining : Word) : Word :=
  if 512 ≤ currentByte + bytesRemaining then 512 - currentByte else bytesRemaining

namespace LoadSys

/-- `elf_load_submit`. -/
def submit (d : FatDriver) (path : List Byte) (pcb : Ptr) (rx : Sector) (w : FsWorld) (m : Bits) :
    LoadSys :=
  ⟨rx, (elfLoadSubmit d path pcb w).1, (elfLoadSubmit d path pcb w).2, m, fun _ => false⟩

/-- The callback `k`, with `ualloc` at hand. -/
def run (d : FatDriver) (k : FsClosure) (status : Int) (c : LoadSys) : LoadSys :=
  if CallsUalloc k status c.world then
    let r := ualloc (elfPhdr c.world k.2).pMemsz c.allocBitmap
    let s := fsCode d c.rx k status { c.world with uallocs := fun _ => r.1 }
    ⟨c.rx, s.1, s.2, r.2, newlyMarked c.allocBitmap r.2⟩
  else
    let s := fsCode d c.rx k status c.world
    ⟨c.rx, s.1, s.2, c.allocBitmap, c.marked⟩

/-- What the callback writes to the memory of a segment, as an address and a number of bytes: it is
cleared, or a part of its contents is copied. -/
def segmentWrite (k : FsClosure) (status : Int) (c : LoadSys) : Option (Ptr × Nat) :=
  if CallsUalloc k status c.world then
    let memsz := (elfPhdr c.world k.2).pMemsz
    let mem := (ualloc memsz c.allocBitmap).1
    if mem = null then none else some (mem, memsz.toNat)
  else if CopiesSegment k status c.world then
    let r := c.world.readCtx k.2
    some (r.buffer, (bytesToCopy (c.world.file r.file).currentByte r.bytesRemaining).toInt.toNat)
  else none

end LoadSys

/-! ## The condition -/

/-- The bytes in the blocks that `ualloc` marks for `n` bytes. -/
def markedBytes (n : Nat) : Nat := if n = 0 then 0 else 64 * allocatedBits n

/-- Between the end of a file of `size` bytes and position `e`, a sector begins.  (Sectors are counted
up to the largest file there is.) -/
def EndsBefore (size e : Nat) : Prop := ∃ i < 2 ^ 23, size < 512 * i ∧ 512 * i ≤ e

instance (size e : Nat) : Decidable (EndsBefore size e) := inferInstanceAs (Decidable (∃ i < _, _))

/-- **A segment that stays in its blocks**, in a file of `size` bytes.  What is asked for is at most
2³⁰ bytes; and the contents are no larger than the blocks; or their size is so large that adding it to
the position in the sector overflows, and nothing is copied; or they are beyond the end of the file;
or the file ends before a sector that begins in the blocks, and the read fails there. -/
def SegmentFits (ph : ElfPhdr) (size : Nat) : Prop :=
  ph.pMemsz.toNat ≤ 2 ^ 30 ∧
    (ph.pFilesz.toNat ≤ markedBytes ph.pMemsz.toNat ∨
      2 ^ 32 ≤ ph.pOffset.toNat % 512 + ph.pFilesz.toNat ∨ size < ph.pOffset.toNat ∨
      EndsBefore size (ph.pOffset.toNat + markedBytes ph.pMemsz.toNat))

instance (ph : ElfPhdr) (size : Nat) : Decidable (SegmentFits ph size) :=
  inferInstanceAs (Decidable (_ ∧ (_ ∨ _ ∨ _ ∨ _)))

/-- The condition on a callback: a segment for which there is memory fits. -/
def LoadSys.Fitting (c : LoadSys) (k : FsClosure) (status : Int) : Prop :=
  CallsUalloc k status c.world →
    (ualloc (elfPhdr c.world k.2).pMemsz c.allocBitmap).1 = null ∨
      SegmentFits (elfPhdr c.world k.2) (c.world.file (elfFile k.2)).fileSize.toNat

instance (c : LoadSys) (k : FsClosure) (status : Int) : Decidable (c.Fitting k status) :=
  inferInstanceAs (Decidable (_ → _ ∨ _))

/-! ## Runs -/

/-- The context of `k` is as before. -/
def SameCtx (w w' : FsWorld) (k : FsClosure) : Prop :=
  match k.1 with
  | .fsOpenStep => w'.openCtx k.2 = w.openCtx k.2
  | .fsReadStep => w'.readCtx k.2 = w.readCtx k.2
  | .fsSeekStep => w'.seekCtx k.2 = w.seekCtx k.2
  | .elfStep => w'.elfCtx k.2 = w.elfCtx k.2
  | .client => True

/-- What all others leave alone while the load at `ctx` waits for `k` to be called: its context with
the file and the headers in it, and the contexts of the operations it has under way. -/
structure LeftAlone (ctx : Ptr) (k : FsClosure) (w w' : FsWorld) : Prop where
  loader : SameCtx w w' (.elfStep, ctx)
  pending : SameCtx w w' k
  waiting : ∀ k', caller w k = some k' → SameCtx w w' k'
  file : w'.file (elfFile ctx) = w.file (elfFile ctx)
  headers : ∀ a, InHeaders ctx a → w'.mem a = w.mem a

/-- The states of a load whose context is at `ctx`, in every run whose callbacks all meet the
condition `P`.  The context is in kernel memory, which is all below user memory.  A sector asked for
arrives with any contents and any status, and until then anything may happen elsewhere. -/
inductive LoadReach (P : LoadSys → FsClosure → Int → Prop) (d : FatDriver) (ctx : Ptr) :
    LoadSys → Prop
  | submit {path : List Byte} {pcb : Ptr} {rx : Sector} {w : FsWorld} {m : Bits}
      (hctx : w.kmalloc.1 = ctx) (hkernel : ctx.toNat + 156 ≤ userRamStart.toNat) :
      LoadReach P d ctx (.submit d path pcb rx w m)
  | others {c : LoadSys} {b : Word} {k : FsClosure} {w : FsWorld} {m : Bits}
      (hc : LoadReach P d ctx c) (hpost : c.action = .post b k) (hw : LeftAlone ctx k c.world w) :
      LoadReach P d ctx { c with world := w, allocBitmap := m }
  | complete {c : LoadSys} {b : Word} {k : FsClosure} (rx : Sector) (status : Int)
      (hc : LoadReach P d ctx c) (hpost : c.action = .post b k) :
      LoadReach P d ctx { c with rx := rx, action := .call k status }
  | run {c : LoadSys} {k : FsClosure} {status : Int} (hc : LoadReach P d ctx c)
      (hcall : c.action = .call k status) (hok : P c k status) : LoadReach P d ctx (c.run d k status)

/-- **The callback writes only to blocks of its segment**: every byte it clears or copies is in the
blocks that `ualloc` has marked for the segment, and nothing else changes in memory but the headers. -/
def LoadSys.Confined (d : FatDriver) (ctx : Ptr) (c : LoadSys) (k : FsClosure) (status : Int) : Prop :=
  (∀ p n, c.segmentWrite k status = some (p, n) →
    ∀ i < n, InBlocks (c.run d k status).marked (p + BitVec.ofNat 32 i)) ∧
  ∀ a, (c.run d k status).world.mem a ≠ c.world.mem a →
    InBlocks (c.run d k status).marked a ∨ InHeaders ctx a

/-! ## Copying -/

/-- A read of `rem` bytes into `buffer` writes no bytes but those that are `ok`, from a file of `size`
bytes that is at position `off`, at byte `byte` of its sector. -/
def Fits (ok : Word → Prop) (buffer : Ptr) (rem size off byte : Word) : Prop :=
  byte.toNat ≤ 512 ∧ ∃ n ≤ 2 ^ 18, (∀ i < n, ok (buffer + BitVec.ofNat 32 i)) ∧
    (rem.toNat ≤ n ∨ 2 ^ 32 ≤ byte.toNat + rem.toNat ∨
      off.toNat ≤ size.toNat ∧ byte.toNat = off.toNat % 512 ∧
        EndsBefore size.toNat (off.toNat + n))

section Copy

variable {ok ok' : Word → Prop} {buffer : Ptr} {rem size off byte : Word}

theorem Fits.mono (h : Fits ok buffer rem size off byte) (hok : ∀ a, ok a → ok' a) :
    Fits ok' buffer rem size off byte := by
  obtain ⟨hbyte, n, hn, hin, hcase⟩ := h
  exact ⟨hbyte, n, hn, fun i hi => hok _ (hin i hi), hcase⟩

/-- The chunk is the rest of the sector, or what is left of the read, or, if the sum overflows, a
negative number. -/
theorem bytesToCopy_cases (hbyte : byte.toNat ≤ 512) :
    (byte.toNat + rem.toNat < 2 ^ 32 ∧ 512 ≤ byte.toNat + rem.toNat ∧
      (bytesToCopy byte rem).toNat = 512 - byte.toNat) ∨
    (bytesToCopy byte rem = rem ∧ byte.toNat + rem.toNat < 512) ∨
    (bytesToCopy byte rem = rem ∧ 2 ^ 32 ≤ byte.toNat + rem.toNat) := by
  have hrem := rem.isLt
  have hle : (512 : Word) ≤ byte + rem ↔ 512 ≤ (byte.toNat + rem.toNat) % 2 ^ 32 := by
    rw [BitVec.le_def, toNat_512, BitVec.toNat_add]
  have hsub : ((512 : Word) - byte).toNat = 512 - byte.toNat := by
    rw [BitVec.toNat_sub, toNat_512]
    omega
  rw [bytesToCopy]
  by_cases hsum : (512 : Word) ≤ byte + rem
  · rw [if_pos hsum, hsub]
    rw [hle] at hsum
    exact Or.inl ⟨by omega, by omega, rfl⟩
  · rw [if_neg hsum]
    rw [hle] at hsum
    rcases Nat.lt_or_ge (byte.toNat + rem.toNat) (2 ^ 32) with hlt | hge
    · exact Or.inr (Or.inl ⟨rfl, by omega⟩)
    · exact Or.inr (Or.inr ⟨rfl, hge⟩)

/-- The byte of the sector after the chunk. -/
theorem add_bytesToCopy_le (hbyte : byte.toNat ≤ 512) :
    (byte + bytesToCopy byte rem).toNat ≤ 512 := by
  have hrem := rem.isLt
  rw [BitVec.toNat_add]
  rcases @bytesToCopy_cases rem byte hbyte with ⟨-, -, hn⟩ | ⟨hn, hsum⟩ | ⟨hn, hsum⟩
  · rw [hn]
    omega
  · rw [hn]
    omega
  · rw [hn]
    omega

/-- The chunk is not longer than what may be written. -/
theorem Fits.bytesToCopy_le (h : Fits ok buffer rem size off byte) :
    ∃ n ≤ 2 ^ 18, (bytesToCopy byte rem).toInt.toNat ≤ n ∧
      ∀ i < n, ok (buffer + BitVec.ofNat 32 i) := by
  obtain ⟨hbyte, n, hn, hin, hcase⟩ := h
  refine ⟨n, hn, ?_, hin⟩
  have hrem := rem.isLt
  rcases @bytesToCopy_cases rem byte hbyte with ⟨hsum, hsum', hcopy⟩ | ⟨hcopy, hsum⟩ | ⟨hcopy, hsum⟩
  · rw [toInt_toNat (by omega), hcopy]
    rcases hcase with hle | hwrap | ⟨hoff, hmod, i, -, hsize, hend⟩
    · omega
    · omega
    · omega
  · rw [hcopy, toInt_toNat (by omega)]
    rcases hcase with hle | hwrap | ⟨hoff, hmod, i, -, hsize, hend⟩
    · exact hle
    · omega
    · omega
  · -- a negative number of bytes is none
    have hneg : rem.toInt ≤ 0 := by
      rw [BitVec.toInt_eq_toNat_cond, if_neg (by omega)]
      omega
    rw [hcopy, Int.toNat_of_nonpos hneg]
    exact Nat.zero_le n

/-- **The rest of the read fits**, after the chunk and a seek past it. -/
theorem Fits.next (h : Fits ok buffer rem size off byte) (hmore : rem - bytesToCopy byte rem ≠ 0)
    (hsize : (off + bytesToCopy byte rem).toNat ≤ size.toNat) :
    Fits ok (buffer + bytesToCopy byte rem) (rem - bytesToCopy byte rem) size
      (off + bytesToCopy byte rem)
      (BitVec.ofNat 32 ((off + bytesToCopy byte rem).toNat % 512)) := by
  obtain ⟨hbyte, n, hn, hin, hcase⟩ := h
  have hrem := rem.isLt
  rcases @bytesToCopy_cases rem byte hbyte with ⟨hsum, hsum', hcopy⟩ | ⟨hcopy, -⟩ | ⟨hcopy, -⟩
  · generalize bytesToCopy byte rem = x at *
    have hrest : (rem - x).toNat = rem.toNat - x.toNat := by
      rw [BitVec.toNat_sub]
      omega
    have hbyte' : (BitVec.ofNat 32 ((off + x).toNat % 512)).toNat = (off + x).toNat % 512 := by
      rw [BitVec.toNat_ofNat]
      omega
    have hin' : ∀ i < n - x.toNat, ok (buffer + x + BitVec.ofNat 32 i) := by
      intro i hi
      have hadd : buffer + x + BitVec.ofNat 32 i = buffer + BitVec.ofNat 32 (x.toNat + i) := by
        rw [BitVec.ofNat_add, BitVec.ofNat_toNat, BitVec.setWidth_eq, BitVec.add_assoc]
      rw [hadd]
      exact hin _ (by omega)
    refine ⟨by omega, n - x.toNat, by omega, hin', ?_⟩
    rw [hrest, hbyte']
    rcases hcase with hle | hwrap | ⟨hoff, hmod, i, hi, hlt, hend⟩
    · exact Or.inl (by omega)
    · exact absurd hsum (by omega)
    · -- the next sector begins before the one at which the file has ended
      have hadd : (off + x).toNat = off.toNat + x.toNat := by
        rw [BitVec.toNat_add]
        omega
      exact Or.inr (Or.inr ⟨hsize, rfl, i, hi, hlt, by omega⟩)
  · rw [hcopy, BitVec.sub_self] at hmore
    exact absurd rfl hmore
  · rw [hcopy, BitVec.sub_self] at hmore
    exact absurd rfl hmore

end Copy

/-! ## The blocks of a segment -/

/-- **What `ualloc` hands out lies in the blocks it has just marked.** -/
theorem inBlocks_ualloc {n : Word} {m : Bits} (hle : n.toNat ≤ 2 ^ 30) (hp : (ualloc n m).1 ≠ null) :
    markedBytes n.toNat ≤ 2 ^ 18 ∧ n.toNat ≤ markedBytes n.toNat ∧ ∀ i < markedBytes n.toNat,
      InBlocks (newlyMarked m (ualloc n m).2) ((ualloc n m).1 + BitVec.ofNat 32 i) := by
  rcases Nat.eq_zero_or_pos n.toNat with hzero | hpos
  · rw [markedBytes, if_pos hzero]
    exact ⟨Nat.zero_le _, hzero.le, fun i hi => absurd hi (Nat.not_lt_zero i)⟩
  obtain ⟨s, h0, hend, hrun, heq⟩ := ualloc_spec hpos hle hp
  have hk := allocatedBits_pos n.toNat
  have haddr := blockAddr_toNat h0 (show s < numBlocks by omega)
  have hblocks : (numBlocks : Int) = 4096 := rfl
  rw [markedBytes, if_neg hpos.ne', heq]
  dsimp only
  refine ⟨by omega, le_allocatedBits _, fun i hi => ?_⟩
  have hsum : ((blockAddr s + BitVec.ofNat 32 i).toNat : Int) = 0x40000 + 64 * s + i := by
    rw [BitVec.toNat_add, BitVec.toNat_ofNat]
    omega
  have hbit : blockBit (blockAddr s + BitVec.ofNat 32 i) = s + i / 64 := by
    rw [blockBit_eq (by omega)]
    omega
  refine ⟨?_, ?_, ?_⟩
  · change 0x40000 ≤ _
    omega
  · change _ < 0x40000 + 64 * 4096
    omega
  · rw [hbit, newlyMarked, hrun _ (by omega) (by omega), Bool.not_false, Bool.true_and, markBitsUsed,
      test_forRange_set h0 _ (by omega)]
    exact Or.inl ⟨by omega, by omega⟩

theorem InBlocks.le_toNat {marked : Int → Bool} {a : Word} (h : InBlocks marked a) :
    0x40000 ≤ a.toNat := h.1

/-- The headers are in kernel memory. -/
theorem InHeaders.toNat_lt {ctx a : Ptr} (h : InHeaders ctx a)
    (hctx : ctx.toNat + 156 ≤ userRamStart.toNat) : a.toNat < 0x40000 := by
  change ctx.toNat + 156 ≤ 0x40000 at hctx
  rw [InHeaders, elfHeader] at h
  bv_omega

/-! ## The invariant -/

/-- Where a read on behalf of the loader may write: while a segment is loaded, to its blocks, and
otherwise to the headers. -/
def Target (marked : Int → Bool) (ctx : Ptr) (w : FsWorld) (a : Word) : Prop :=
  if (w.elfCtx ctx).state = .loadPcontent then InBlocks marked a else InHeaders ctx a

/-- `k` is the loader, or an operation on its behalf. -/
def Serves (ctx : Ptr) (w : FsWorld) (k : FsClosure) : Prop :=
  match k.1 with
  | .elfStep => k.2 = ctx
  | .fsReadStep => (w.readCtx k.2).callback = .elfStep ∧ (w.readCtx k.2).ctx = ctx ∧
      (w.readCtx k.2).file = elfFile ctx ∧ (w.elfCtx ctx).state ≠ .seekPcontent
  | .fsOpenStep => (w.openCtx k.2).onComplete = some .elfStep ∧ (w.openCtx k.2).callerCtx = ctx ∧
      (w.openCtx k.2).outFile = elfFile ctx ∧ (w.elfCtx ctx).state = .opening
  | .fsSeekStep => (w.seekCtx k.2).file = elfFile ctx ∧
      ((w.seekCtx k.2).target.byteInSector.setWidth 32 : Word) =
        BitVec.ofNat 32 ((w.seekCtx k.2).targetOffset.toNat % 512)
  | .client => False

/-- With its file at position `off`, at byte `byte` of its sector, `k` can go on. -/
def Ready (marked : Int → Bool) (ctx : Ptr) (w : FsWorld) (off byte : Word) (k : FsClosure) : Prop :=
  match k.1 with
  | .elfStep => (w.elfCtx ctx).state = .seekPcontent →
      Fits (InBlocks marked) (w.elfCtx ctx).segBuf (elfPhdr w ctx).pFilesz
        (w.file (elfFile ctx)).fileSize off byte
  | .fsReadStep => Fits (Target marked ctx w) (w.readCtx k.2).buffer (w.readCtx k.2).bytesRemaining
      (w.file (elfFile ctx)).fileSize off byte
  | .fsOpenStep | .fsSeekStep | .client => True

/-- **The invariant**, when `k` is to be called with `status`. -/
structure LoadHolds (marked : Int → Bool) (ctx : Ptr) (w : FsWorld) (k : FsClosure) (status : Int) :
    Prop where
  byte : (w.file (elfFile ctx)).currentByte.toNat ≤ 512
  serves : Serves ctx w k
  ready : status = 0 →
    Ready marked ctx w (w.file (elfFile ctx)).fileOffset (w.file (elfFile ctx)).currentByte k
  waiting : ∀ k', caller w k = some k' → (k'.1 = .elfStep ∨ k'.1 = .fsReadStep) ∧ Serves ctx w k' ∧
    Ready marked ctx w (w.seekCtx k.2).targetOffset
      (BitVec.ofNat 32 ((w.seekCtx k.2).targetOffset.toNat % 512)) k'

/-- The invariant, by what is to be done next. -/
def LoadInv (marked : Int → Bool) (ctx : Ptr) (w : FsWorld) : FsAction → Prop
  | .post _ k => ∀ status, LoadHolds marked ctx w k status
  | .call k status => LoadHolds marked ctx w k status
  | .stop => True

/-- What a step function may leave, with `m` the memory before. -/
structure Stays (marked : Int → Bool) (ctx : Ptr) (m : Mem) (r : FsWorld × FsAction) : Prop where
  inv : LoadInv marked ctx r.1 r.2
  mem : ∀ a, r.1.mem a ≠ m a → InBlocks marked a ∨ InHeaders ctx a

section Invariant

variable {marked : Int → Bool} {ctx : Ptr} {w w' : FsWorld} {k : FsClosure} {off byte : Word}
  {status : Int} {d : FatDriver} {rx : Sector} {m : Mem}

theorem Serves.congr (h : Serves ctx w k) (hk : SameCtx w w' k) (helf : w'.elfCtx ctx = w.elfCtx ctx) :
    Serves ctx w' k := by
  obtain ⟨cb, p⟩ := k
  cases cb with
  | fsOpenStep => rwa [Serves, show w'.openCtx p = w.openCtx p from hk, helf]
  | fsReadStep => rwa [Serves, show w'.readCtx p = w.readCtx p from hk, helf]
  | fsSeekStep => rwa [Serves, show w'.seekCtx p = w.seekCtx p from hk]
  | elfStep => exact h
  | client => exact h

theorem Ready.congr (h : Ready marked ctx w off byte k) (hk : SameCtx w w' k)
    (helf : w'.elfCtx ctx = w.elfCtx ctx) (hphdr : elfPhdr w' ctx = elfPhdr w ctx)
    (hsize : (w'.file (elfFile ctx)).fileSize = (w.file (elfFile ctx)).fileSize) :
    Ready marked ctx w' off byte k := by
  obtain ⟨cb, p⟩ := k
  cases cb with
  | elfStep => rwa [Ready, helf, hphdr, hsize]
  | fsReadStep =>
    have htarget : Target marked ctx w' = Target marked ctx w := by
      funext a
      rw [Target, Target, helf]
    rwa [Ready, htarget, show w'.readCtx p = w.readCtx p from hk, hsize]
  | fsOpenStep | fsSeekStep | client => trivial

/-- The header a loader has is part of its headers. -/
theorem elfPhdr_congr (h : ∀ a, InHeaders ctx a → w'.mem a = w.mem a) :
    elfPhdr w' ctx = elfPhdr w ctx :=
  loadPhdr_congr fun a ha => h a (sub_elfHeader_of_lt ctx ha).2

/-- **The invariant depends on nothing that others change.** -/
theorem LoadHolds.leftAlone (h : LoadHolds marked ctx w k status) (hw : LeftAlone ctx k w w') :
    LoadHolds marked ctx w' k status := by
  have helf : w'.elfCtx ctx = w.elfCtx ctx := hw.loader
  have hphdr := elfPhdr_congr hw.headers
  have hsize := congrArg File.fileSize hw.file
  refine ⟨?_, h.serves.congr hw.pending helf, fun hstatus => ?_, fun k' hk' => ?_⟩
  · rw [hw.file]
    exact h.byte
  · rw [hw.file]
    exact (h.ready hstatus).congr hw.pending helf hphdr hsize
  · obtain ⟨cb, p⟩ := k
    cases cb with
    | fsSeekStep =>
      have hseek : w'.seekCtx p = w.seekCtx p := hw.pending
      have hcaller : caller w (.fsSeekStep, p) = some k' := by
        rw [← hk', caller, caller, hseek]
      have hsame := hw.waiting k' hcaller
      obtain ⟨hkind, hserves, hready⟩ := h.waiting k' hcaller
      rw [hseek]
      exact ⟨hkind, hserves.congr hsame helf, hready.congr hsame helf hphdr hsize⟩
    | fsOpenStep | fsReadStep | elfStep | client => cases hk'

/-- Only a seek is made on behalf of another operation. -/
theorem LoadHolds.of_ready (hbyte : (w.file (elfFile ctx)).currentByte.toNat ≤ 512)
    (hserves : Serves ctx w k) (hkind : k.1 ≠ .fsSeekStep)
    (hready : status = 0 → Ready marked ctx w (w.file (elfFile ctx)).fileOffset
      (w.file (elfFile ctx)).currentByte k) : LoadHolds marked ctx w k status := by
  refine ⟨hbyte, hserves, hready, fun k' hk' => ?_⟩
  obtain ⟨cb, p⟩ := k
  cases cb with
  | fsSeekStep => exact absurd rfl hkind
  | fsOpenStep | fsReadStep | elfStep | client => cases hk'

/-- Most step functions leave memory alone. -/
theorem Stays.of_same {r : FsWorld × FsAction} (hinv : LoadInv marked ctx r.1 r.2)
    (hmem : r.1.mem = m) : Stays marked ctx m r :=
  ⟨hinv, fun a ha => absurd (congrFun hmem a) ha⟩

/-- Or they come after a permitted change of it. -/
theorem Stays.after {r : FsWorld × FsAction} {m' : Mem} (h : Stays marked ctx m' r)
    (hm : ∀ a, m' a ≠ m a → InBlocks marked a ∨ InHeaders ctx a) : Stays marked ctx m r := by
  refine ⟨h.inv, fun a ha => ?_⟩
  by_cases hsame : r.1.mem a = m' a
  · exact hm a (hsame ▸ ha)
  · exact h.mem a hsame

/-- The contexts of loaders and reads are in these two maps. -/
theorem sameCtx_of_eq (hkind : k.1 = .elfStep ∨ k.1 = .fsReadStep) (hread : w'.readCtx = w.readCtx)
    (helf : w'.elfCtx = w.elfCtx) : SameCtx w w' k := by
  obtain ⟨cb, p⟩ := k
  rcases hkind with h | h <;> cases h
  · exact congrFun helf p
  · exact congrFun hread p

/-! ## Seeks -/

/-- **A seek is submitted**, for a loader or a read that can go on from the target. -/
theorem stays_seekSubmit {t : Word} (hmem : w.mem = m)
    (hbyte : (w.file (elfFile ctx)).currentByte.toNat ≤ 512)
    (hkind : k.1 = .elfStep ∨ k.1 = .fsReadStep) (hserves : Serves ctx w k)
    (hready : t.toNat ≤ (w.file (elfFile ctx)).fileSize.toNat →
      Ready marked ctx w t (BitVec.ofNat 32 (t.toNat % 512)) k) :
    Stays marked ctx m (fsSeekSubmit d (elfFile ctx) t k.1 k.2 w) := by
  have hseek : k.1 ≠ .fsSeekStep := by
    rcases hkind with h | h <;> rw [h] <;> nofun
  rcases fsSeekSubmit_cases d (elfFile ctx) t k.1 k.2 w with
    heq | ⟨hsize, heq | ⟨start, skip, -, heq⟩⟩
  · rw [heq]
    exact .of_same (.of_ready hbyte hserves hseek fun h => absurd h (by decide)) hmem
  · -- the file is moved at once
    rw [heq]
    refine .of_same (.of_ready ?_ (hserves.congr (sameCtx_of_eq hkind rfl rfl) rfl) hseek
      fun _ => ?_) hmem
    · rw [setFile_file, seekDecompose_byte, BitVec.toNat_ofNat]
      omega
    · rw [setFile_file, seekDecompose_byte]
      exact (hready hsize).congr (sameCtx_of_eq hkind rfl rfl) rfl rfl (by rw [setFile_file])
  · rw [heq]
    refine .of_same (fun status => ⟨hbyte, ?_, fun _ => trivial, fun k' hk' => ?_⟩) hmem
    · rw [Serves]
      simp only [setSeekCtx_seekCtx]
      exact ⟨trivial, seekDecompose_byte d t⟩
    · rw [caller] at hk'
      simp only [setSeekCtx_seekCtx, Option.some_inj] at hk' ⊢
      subst hk'
      exact ⟨hkind, hserves.congr (sameCtx_of_eq hkind rfl rfl) rfl,
        (hready hsize).congr (sameCtx_of_eq hkind rfl rfl) rfl rfl rfl⟩

/-- A seek that fails, or is done, calls whom it was made for. -/
theorem stays_seekFinish {q : Ptr} (hmem : w.mem = m)
    (hbyte : (w.file (elfFile ctx)).currentByte.toNat ≤ 512)
    (hkind : (w.seekCtx q).onComplete = .elfStep ∨ (w.seekCtx q).onComplete = .fsReadStep)
    (hserves : Serves ctx w ((w.seekCtx q).onComplete, (w.seekCtx q).callerCtx))
    (hready : (w.seekCtx q).state = .done → Ready marked ctx w (w.file (elfFile ctx)).fileOffset
      (w.file (elfFile ctx)).currentByte ((w.seekCtx q).onComplete, (w.seekCtx q).callerCtx)) :
    Stays marked ctx m (fsSeekFinish q w) := by
  rw [fsSeekFinish]
  refine .of_same (.of_ready hbyte hserves ?_ fun hok => hready ?_) hmem
  · rcases hkind with h | h <;> simp [h]
  · by_contra hne
    rw [if_neg hne] at hok
    exact absurd hok (by decide)

/-- **The step of a seek.** -/
theorem stays_seekStep {q : Ptr} (h : LoadHolds marked ctx w (.fsSeekStep, q) status) :
    Stays marked ctx w.mem (fsSeekStep d rx q status w) := by
  obtain ⟨hkind, hserves, hready⟩ := h.waiting _ rfl
  obtain ⟨hfile, hbyte⟩ := h.serves
  dsimp only at hfile hbyte hready
  have hsame : ∀ w', w'.readCtx = w.readCtx → w'.elfCtx = w.elfCtx →
      SameCtx w w' ((w.seekCtx q).onComplete, (w.seekCtx q).callerCtx) := fun w' hread helf =>
    sameCtx_of_eq hkind hread helf
  have hfail : Stays marked ctx w.mem
      (fsSeekFinish q (w.setSeekCtx q { w.seekCtx q with state := .error })) := by
    refine stays_seekFinish rfl h.byte ?_ ?_ fun hdone => ?_
    · rw [setSeekCtx_seekCtx]
      exact hkind
    · rw [setSeekCtx_seekCtx]
      exact hserves.congr (hsame _ rfl rfl) rfl
    · rw [setSeekCtx_seekCtx] at hdone
      cases hdone
  rw [fsSeekStep]
  split
  · exact hfail
  · dsimp only
    split
    · exact hfail
    · split
      · -- the file is moved
        rw [hfile]
        refine stays_seekFinish rfl ?_ ?_ ?_ fun _ => ?_
        · change ((w.setFile (elfFile ctx) _).file (elfFile ctx)).currentByte.toNat ≤ 512
          rw [setFile_file, hbyte, BitVec.toNat_ofNat]
          omega
        · rw [setSeekCtx_seekCtx]
          exact hkind
        · rw [setSeekCtx_seekCtx]
          exact hserves.congr (hsame _ rfl rfl) rfl
        · rw [setSeekCtx_seekCtx]
          change Ready marked ctx _ ((w.setFile (elfFile ctx) _).file (elfFile ctx)).fileOffset
            ((w.setFile (elfFile ctx) _).file (elfFile ctx)).currentByte _
          rw [setFile_file, hbyte]
          refine hready.congr (hsame _ rfl rfl) rfl rfl ?_
          change ((w.setFile (elfFile ctx) _).file (elfFile ctx)).fileSize = _
          rw [setFile_file]
      · refine .of_same (fun status => ⟨h.byte, ?_, fun _ => trivial, fun k' hk' => ?_⟩) rfl
        · rw [Serves]
          simp only [setSeekCtx_seekCtx]
          exact ⟨hfile, hbyte⟩
        · rw [caller] at hk'
          simp only [setSeekCtx_seekCtx, Option.some_inj] at hk' ⊢
          subst hk'
          exact ⟨hkind, hserves.congr (hsame _ rfl rfl) rfl,
            hready.congr (hsame _ rfl rfl) rfl rfl rfl⟩

/-! ## Reads -/

/-- A read is submitted. -/
theorem stays_readSubmit {buffer : Ptr} {bytes : Word} (hmem : w.mem = m)
    (hbyte : (w.file (elfFile ctx)).currentByte.toNat ≤ 512)
    (hstate : (w.elfCtx ctx).state ≠ .seekPcontent)
    (hfits : Fits (Target marked ctx w) buffer bytes (w.file (elfFile ctx)).fileSize
      (w.file (elfFile ctx)).fileOffset (w.file (elfFile ctx)).currentByte) :
    Stays marked ctx m (fsReadSubmit d (elfFile ctx) buffer bytes .elfStep ctx w) := by
  rw [fsReadSubmit_eq]
  refine .of_same (fun status => .of_ready hbyte ?_ nofun fun _ => ?_) hmem
  · rw [Serves]
    simp only [setReadCtx_readCtx, true_and]
    exact hstate
  · rw [Ready]
    simp only [setReadCtx_readCtx]
    exact hfits

/-- A read that fails, or is done, calls the loader. -/
theorem stays_readFinish {r : Ptr} (hmem : w.mem = m)
    (hbyte : (w.file (elfFile ctx)).currentByte.toNat ≤ 512) (hserves : Serves ctx w (.fsReadStep, r)) :
    Stays marked ctx m (fsReadFinish r w) := by
  obtain ⟨hcb, hctx, -, hstate⟩ := hserves
  rw [fsReadFinish]
  dsimp only at hcb hctx ⊢
  rw [hcb, hctx]
  exact .of_same (.of_ready hbyte rfl (by simp) fun _ hseek => absurd hseek hstate) hmem

/-- The read's context may change in everything but whom it serves. -/
theorem serves_setReadCtx {r : Ptr} {c : FsReadCtx} (h : Serves ctx w (.fsReadStep, r))
    (hcb : c.callback = (w.readCtx r).callback) (hctx : c.ctx = (w.readCtx r).ctx)
    (hfile : c.file = (w.readCtx r).file) : Serves ctx (w.setReadCtx r c) (.fsReadStep, r) := by
  obtain ⟨hcb', hctx', hfile', hstate⟩ := h
  rw [Serves]
  simp only [setReadCtx_readCtx]
  exact ⟨hcb.trans hcb', hctx.trans hctx', hfile.trans hfile', hstate⟩

/-- **What a chunk of a read overwrites** may be written. -/
theorem target_of_copied {buffer : Ptr} {rem size : Word} {x : Mem}
    (h : Fits (Target marked ctx w) buffer rem size off byte) {a : Word}
    (ha : copySector rx byte buffer (bytesToCopy byte rem).toInt.toNat x a ≠ x a) :
    InBlocks marked a ∨ InHeaders ctx a := by
  obtain ⟨n, hn, hle, hin⟩ := h.bytesToCopy_le
  rw [copySector_apply _ _ _ _ _ (by omega)] at ha
  have hlt : (a - buffer).toNat < (bytesToCopy byte rem).toInt.toNat := by
    by_contra hnot
    rw [if_neg hnot] at ha
    exact ha rfl
  have htarget := hin (a - buffer).toNat (by omega)
  rw [add_ofNat_toNat_sub, Target] at htarget
  split at htarget
  · exact Or.inl htarget
  · exact Or.inr htarget

/-- **The step of a read.** -/
theorem stays_readStep {r : Ptr} (h : LoadHolds marked ctx w (.fsReadStep, r) status) :
    Stays marked ctx w.mem (fsReadStep d rx r status w) := by
  have hserves := h.serves
  obtain ⟨hcb, hctx, hfile, hstate⟩ := h.serves
  dsimp only at hcb hctx hfile
  rw [fsReadStep]
  by_cases hstatus : status ≠ 0
  · rw [if_pos hstatus]
    exact stays_readFinish rfl h.byte (serves_setReadCtx hserves rfl rfl rfl)
  rw [if_neg hstatus]
  have hfits : Fits (Target marked ctx w) (w.readCtx r).buffer (w.readCtx r).bytesRemaining
      (w.file (elfFile ctx)).fileSize (w.file (elfFile ctx)).fileOffset
      (w.file (elfFile ctx)).currentByte := h.ready (not_not.1 hstatus)
  cases hrs : (w.readCtx r).state with
  | loadContents =>
    dsimp only
    rw [fsReadPostIo]
    refine .of_same (fun status => .of_ready h.byte (serves_setReadCtx hserves rfl rfl rfl) (by simp)
      fun _ => ?_) rfl
    rw [Ready]
    simp only [setReadCtx_readCtx]
    exact hfits
  | copyContents =>
    dsimp only
    rw [hfile]
    generalize hn : (if 512 ≤ (w.file (elfFile ctx)).currentByte + (w.readCtx r).bytesRemaining
      then 512 - (w.file (elfFile ctx)).currentByte else (w.readCtx r).bytesRemaining : Word) = n
    obtain rfl : bytesToCopy (w.file (elfFile ctx)).currentByte (w.readCtx r).bytesRemaining = n := hn
    have hcopy : ∀ a, copySector rx (w.file (elfFile ctx)).currentByte (w.readCtx r).buffer
        (bytesToCopy (w.file (elfFile ctx)).currentByte
          (w.readCtx r).bytesRemaining).toInt.toNat w.mem a ≠ w.mem a →
        InBlocks marked a ∨ InHeaders ctx a := fun a ha => target_of_copied hfits ha
    refine Stays.after ?_ hcopy
    split
    · -- the last chunk
      refine stays_readFinish rfl ?_ (serves_setReadCtx hserves rfl rfl hfile.symm)
      change ((FsWorld.setFile _ (elfFile ctx) _).file (elfFile ctx)).currentByte.toNat ≤ 512
      rw [setFile_file]
      exact add_bytesToCopy_le h.byte
    · rename_i hmore
      rw [fsSeekWhence_eq rfl]
      refine stays_seekSubmit (k := (.fsReadStep, r)) rfl h.byte (Or.inr rfl)
        (serves_setReadCtx hserves rfl rfl hfile.symm) fun hsize => ?_
      rw [Ready]
      simp only [setReadCtx_readCtx]
      exact hfits.next hmore hsize
  | seekRead => exact .of_same trivial rfl
  | done => exact .of_same trivial rfl
  | error => exact .of_same trivial rfl

/-! ## Opens -/

/-- The open's context may change in everything but whom it serves. -/
theorem serves_setOpenCtx {o : Ptr} {c : FsOpenCtx} (h : Serves ctx w (.fsOpenStep, o))
    (hcb : c.onComplete = (w.openCtx o).onComplete) (hctx : c.callerCtx = (w.openCtx o).callerCtx)
    (hfile : c.outFile = (w.openCtx o).outFile) : Serves ctx (w.setOpenCtx o c) (.fsOpenStep, o) := by
  obtain ⟨hcb', hctx', hfile', hstate⟩ := h
  rw [Serves]
  simp only [setOpenCtx_openCtx]
  exact ⟨hcb.trans hcb', hctx.trans hctx', hfile.trans hfile', hstate⟩

/-- An open that fails, or is done, calls the loader. -/
theorem stays_openFinish {o : Ptr} (hmem : w.mem = m)
    (hbyte : (w.file (elfFile ctx)).currentByte.toNat ≤ 512) (hserves : Serves ctx w (.fsOpenStep, o)) :
    Stays marked ctx m (fsOpenFinish o w) := by
  obtain ⟨hcb, hctx, -, hstate⟩ := hserves
  dsimp only at hcb hctx
  rw [fsOpenFinish]
  dsimp only
  split
  · exact .of_same trivial hmem
  · rw [hcb, hctx]
    refine .of_same (.of_ready hbyte rfl (by simp) fun _ hseek => ?_) hmem
    rw [hstate] at hseek
    cases hseek

/-- An open asks for another sector. -/
theorem stays_openPostIo {o : Ptr} {lba : Word} {next : FsOpenState} (hmem : w.mem = m)
    (hbyte : (w.file (elfFile ctx)).currentByte.toNat ≤ 512) (hserves : Serves ctx w (.fsOpenStep, o)) :
    Stays marked ctx m (fsOpenPostIo o lba next w) :=
  .of_same (fun _ => .of_ready hbyte (serves_setOpenCtx hserves rfl rfl rfl) nofun fun _ => trivial) hmem

/-- **The step of an open.** -/
theorem stays_openStep {o : Ptr} (h : LoadHolds marked ctx w (.fsOpenStep, o) status) :
    Stays marked ctx w.mem (fsOpenStep d rx o status w) := by
  have hserves := h.serves
  obtain ⟨-, -, hfile, -⟩ := h.serves
  dsimp only at hfile
  rw [fsOpenStep]
  dsimp only
  split
  · exact stays_openFinish rfl h.byte (serves_setOpenCtx hserves rfl rfl rfl)
  split
  · split
    · exact stays_openFinish rfl h.byte (serves_setOpenCtx hserves rfl rfl rfl)
    · split
      · -- the file is filled in
        rw [hfile]
        refine stays_openFinish rfl ?_ (serves_setOpenCtx hserves rfl rfl hfile.symm)
        change ((FsWorld.setFile _ (elfFile ctx) _).file (elfFile ctx)).currentByte.toNat ≤ 512
        rw [setFile_file]
        exact Nat.zero_le _
      · rw [storeParentCluster_eq]
        exact stays_openPostIo rfl h.byte (serves_setOpenCtx hserves rfl rfl rfl)
    · split
      · exact stays_openPostIo rfl h.byte (serves_setOpenCtx hserves rfl rfl rfl)
      · exact stays_openPostIo rfl h.byte (serves_setOpenCtx hserves rfl rfl rfl)
  · split
    · exact stays_openFinish rfl h.byte (serves_setOpenCtx hserves rfl rfl rfl)
    · exact stays_openPostIo rfl h.byte (serves_setOpenCtx hserves rfl rfl rfl)
  · exact .of_same trivial rfl
  · exact .of_same trivial rfl
  · exact .of_same trivial rfl

/-! ## The loader -/

/-- A load that ends leaves memory alone. -/
theorem stays_elfFinish (hmem : w.mem = m) : Stays marked ctx m (elfFinish ctx w) := by
  rw [elfFinish]
  dsimp only
  split
  · exact .of_same trivial hmem
  · refine .of_same trivial ?_
    simp only [unblockProcess, (releaseMemorySegment_spec _ _).1]
    exact hmem

/-- A header, or a part of one, fits where it belongs. -/
theorem fits_headers {x : Nat} {n size : Word} (hstate : (w.elfCtx ctx).state ≠ .loadPcontent)
    (hbyte : byte.toNat ≤ 512) (hend : x + n.toNat ≤ 84) :
    Fits (Target marked ctx w) (elfHeader ctx + BitVec.ofNat 32 x) n size off byte := by
  refine ⟨hbyte, n.toNat, by omega, fun i hi => ?_, Or.inl le_rfl⟩
  rw [Target, if_neg hstate, InHeaders, BitVec.add_assoc, ← BitVec.ofNat_add, add_ofNat_sub _ (by omega)]
  omega

/-- A header is asked for. -/
theorem stays_readHeader {x : Nat} {n : Word} {c : ElfCtx} (hmem : w.mem = m)
    (hbyte : (w.file (elfFile ctx)).currentByte.toNat ≤ 512)
    (hseek : c.state ≠ .seekPcontent) (hload : c.state ≠ .loadPcontent) (hend : x + n.toNat ≤ 84) :
    Stays marked ctx m (fsReadSubmit d (elfFile ctx) (elfHeader ctx + BitVec.ofNat 32 x) n .elfStep ctx
      (w.setElfCtx ctx c)) := by
  refine stays_readSubmit hmem hbyte ?_ (fits_headers ?_ hbyte hend)
  · rw [setElfCtx_elfCtx]
    exact hseek
  · rw [setElfCtx_elfCtx]
    exact hload

theorem elfPheader_eq (ctx : Ptr) : elfPheader ctx = elfHeader ctx + BitVec.ofNat 32 52 := by
  rw [elfPheader, elfHeader, BitVec.add_assoc]
  rfl

/-- On to the next header, or to the end. -/
theorem stays_nextHeader (hmem : w.mem = m) (hbyte : (w.file (elfFile ctx)).currentByte.toNat ≤ 512) :
    Stays marked ctx m (elfReadNextProgramHeader d ctx w) := by
  rw [elfReadNextProgramHeader]
  dsimp only
  split
  · rw [elfPheader_eq]
    exact stays_readHeader hmem hbyte (by simp) (by simp) (by decide)
  · rw [fsCloseSubmit]
    refine .of_same (.of_ready hbyte rfl (by simp) fun _ hseek => ?_) hmem
    rw [setElfCtx_elfCtx] at hseek
    cases hseek

/-- **The step of the loader**, when it does not ask for memory. -/
theorem stays_elfStep (h : LoadHolds marked ctx w (.elfStep, ctx) status)
    (hno : ¬ CallsUalloc (.elfStep, ctx) status w) :
    Stays marked ctx w.mem (elfStep d ctx status w) := by
  by_cases hstatus : status = 0
  · subst hstatus
    cases hstate : (w.elfCtx ctx).state with
    | opening =>
      rw [elfStep, if_neg (by decide)]
      simp only [hstate]
      rw [← BitVec.add_zero (elfHeader ctx)]
      exact stays_readHeader (x := 0) rfl h.byte (by simp) (by simp) (by decide)
    | readingHeader =>
      rw [elfStep, if_neg (by decide)]
      simp only [hstate, if_neg (elfValidateHeader_ne_zero _)]
      rw [fsSeekWhence_eq rfl]
      refine stays_seekSubmit (k := (.elfStep, ctx)) rfl h.byte (Or.inl rfl) rfl fun _ hseek => ?_
      rw [setElfCtx_elfCtx] at hseek
      cases hseek
    | loadPheader =>
      rw [elfStep, if_neg (by decide)]
      simp only [hstate]
      rw [elfPheader_eq]
      exact stays_readHeader rfl h.byte (by simp) (by simp) (by decide)
    | readPheader =>
      by_cases hload : (elfPhdr w ctx).IsLoad
      · -- there is no record for the segment
        have hregion : w.kmallocRegions 0 = null := by
          by_contra hne
          exact hno ⟨rfl, rfl, hstate, hload, hne⟩
        rcases @elfStep_segment ctx w d (elfPhdr w ctx) hstate rfl hload with
          ⟨-, hne, -⟩ | ⟨w', c, heq, -, hmem⟩
        · exact absurd hregion hne
        · rw [heq]
          exact stays_elfFinish hmem
      · rw [elfStep_skip hstate rfl hload]
        exact stays_nextHeader rfl h.byte
    | seekPcontent =>
      rw [elfStep_contents hstate]
      refine stays_readSubmit rfl h.byte ?_ ((h.ready rfl hstate).mono fun a ha => ?_)
      · rw [setElfCtx_elfCtx]
        simp
      · rw [Target, if_pos (by rw [setElfCtx_elfCtx])]
        exact ha
    | loadPcontent =>
      rw [elfStep_next hstate]
      exact stays_nextHeader rfl h.byte
    | closing =>
      rw [elfStep, if_neg (by decide)]
      simp only [hstate]
      exact stays_elfFinish rfl
    | done =>
      rw [elfStep, if_neg (by decide)]
      simp only [hstate]
      exact .of_same trivial rfl
    | error =>
      rw [elfStep, if_neg (by decide)]
      simp only [hstate]
      exact .of_same trivial rfl
  · rw [elfStep, if_pos hstatus]
    exact stays_elfFinish rfl

/-- **The step that asks for memory**, when what it is given is in the blocks just marked. -/
theorem stays_segment {n : Nat} (hbyte : (w.file (elfFile ctx)).currentByte.toNat ≤ 512)
    (hkernel : ctx.toNat + 156 ≤ userRamStart.toNat) (hcall : CallsUalloc (.elfStep, ctx) status w)
    (hmem : w.uallocs 0 ≠ null → n ≤ 2 ^ 18 ∧ (elfPhdr w ctx).pMemsz.toNat ≤ n ∧
      (∀ i < n, InBlocks marked (w.uallocs 0 + BitVec.ofNat 32 i)) ∧
      ((elfPhdr w ctx).pFilesz.toNat ≤ n ∨
        2 ^ 32 ≤ (elfPhdr w ctx).pOffset.toNat % 512 + (elfPhdr w ctx).pFilesz.toNat ∨
        (w.file (elfFile ctx)).fileSize.toNat < (elfPhdr w ctx).pOffset.toNat ∨
        EndsBefore (w.file (elfFile ctx)).fileSize.toNat ((elfPhdr w ctx).pOffset.toNat + n))) :
    Stays marked ctx w.mem (elfStep d ctx status w) := by
  obtain ⟨-, rfl, hstate, hload, -⟩ := hcall
  rcases @elfStep_segment ctx w d (elfPhdr w ctx) hstate rfl hload with
    ⟨heq, -, hne⟩ | ⟨w', c, heq, -, hsame⟩
  · obtain ⟨hn, hle, hin, hfits⟩ := hmem hne
    -- clearing the segment
    have hclear : ∀ a, (allocSegment ctx (elfPhdr w ctx) w).mem a ≠ w.mem a → InBlocks marked a := by
      intro a ha
      have hlt : (a - w.uallocs 0).toNat < (elfPhdr w ctx).pMemsz.toNat := by
        by_contra hnot
        exact ha (if_neg hnot)
      have hblock := hin (a - w.uallocs 0).toNat (by omega)
      rwa [add_ofNat_toNat_sub] at hblock
    have hphdr : elfPhdr (allocSegment ctx (elfPhdr w ctx) w) ctx = elfPhdr w ctx := by
      refine elfPhdr_congr fun a ha => ?_
      by_contra hne
      have := (hclear a hne).le_toNat
      have := ha.toNat_lt hkernel
      omega
    rw [heq, fsSeekWhence_eq rfl]
    refine Stays.after ?_ fun a ha => Or.inl (hclear a ha)
    refine stays_seekSubmit (k := (.elfStep, ctx)) rfl hbyte (Or.inl rfl) rfl fun hsize _ => ?_
    have hbuf : ((allocSegment ctx (elfPhdr w ctx) w).elfCtx ctx).segBuf = w.uallocs 0 := by
      rw [allocSegment, setElfCtx_elfCtx]
    have hoffset : (BitVec.ofNat 32 ((elfPhdr w ctx).pOffset.toNat % 512)).toNat =
        (elfPhdr w ctx).pOffset.toNat % 512 := by
      rw [BitVec.toNat_ofNat]
      omega
    rw [hphdr, hbuf]
    refine ⟨by omega, n, hn, hin, ?_⟩
    rw [hoffset]
    rcases hfits with hfile | hwrap | hbeyond | hends
    · exact Or.inl hfile
    · exact Or.inr (Or.inl hwrap)
    · exact absurd hsize (Nat.not_le.2 hbeyond)
    · exact Or.inr (Or.inr ⟨hsize, rfl, hends⟩)
  · rw [heq]
    exact stays_elfFinish hsame

/-- The file is to be opened. -/
theorem stays_openSubmit {path : List Byte} {storage : Ptr} (hmem : w.mem = m)
    (hbyte : (w.file (elfFile ctx)).currentByte.toNat ≤ 512) (hstate : (w.elfCtx ctx).state = .opening) :
    Stays marked ctx m
      (fsOpenSubmitWithDirParent d path (elfFile ctx) 0 (some .elfStep) ctx storage w) := by
  rw [fsOpenSubmitWithDirParent]
  simp only [setInitialDir, setOpenCtx_openCtx, setOpenCtx_setOpenCtx, storeParentCluster_setOpenCtx]
  rw [storeParentCluster_eq]
  refine stays_openPostIo hmem hbyte ?_
  rw [Serves]
  simp only [setOpenCtx_openCtx]
  exact ⟨trivial, trivial, trivial, hstate⟩

/-- The load is submitted. -/
theorem LoadSys.submit_inv {path : List Byte} {pcb : Ptr} {b : Bits} (hctx : w.kmalloc.1 = ctx) :
    LoadInv (LoadSys.submit d path pcb rx w b).marked ctx (LoadSys.submit d path pcb rx w b).world
      (LoadSys.submit d path pcb rx w b).action := by
  subst hctx
  rw [LoadSys.submit, elfLoadSubmit]
  refine (stays_openSubmit rfl ?_ ?_).inv
  · change ((FsWorld.setFile _ (elfFile w.kmalloc.1) _).file (elfFile w.kmalloc.1)).currentByte.toNat ≤ 512
    rw [setFile_file]
    exact Nat.zero_le _
  · rw [setElfCtx_elfCtx]

/-- **Every callback keeps the invariant**, and changes memory only where it may. -/
theorem LoadHolds.run {c : LoadSys} (h : LoadHolds c.marked ctx c.world k status)
    (hkernel : ctx.toNat + 156 ≤ userRamStart.toNat) (hok : c.Fitting k status) :
    Stays (c.run d k status).marked ctx c.world.mem ((c.run d k status).world, (c.run d k status).action) := by
  obtain ⟨cb, p⟩ := k
  by_cases hcall : CallsUalloc (cb, p) status c.world
  · obtain rfl : cb = .elfStep := hcall.1
    obtain rfl : p = ctx := h.serves
    rw [LoadSys.run, if_pos hcall]
    refine stays_segment (n := markedBytes (elfPhdr c.world p).pMemsz.toNat)
      (w := { c.world with uallocs := fun _ => (ualloc (elfPhdr c.world p).pMemsz c.allocBitmap).1 })
      h.byte hkernel hcall fun hne => ?_
    obtain ⟨hle, hfits⟩ := (hok hcall).resolve_left hne
    obtain ⟨hn, hmemsz, hin⟩ := inBlocks_ualloc hle hne
    exact ⟨hn, hmemsz, hin, hfits⟩
  · rw [LoadSys.run, if_neg hcall]
    cases cb with
    | fsOpenStep => exact stays_openStep h
    | fsReadStep => exact stays_readStep h
    | fsSeekStep => exact stays_seekStep h
    | elfStep =>
      obtain rfl : p = ctx := h.serves
      exact stays_elfStep h hcall
    | client => exact h.serves.elim

/-- **Every state of a load whose segments all fit** satisfies the invariant. -/
theorem LoadReach.inv {c : LoadSys} (h : LoadReach LoadSys.Fitting d ctx c) :
    ctx.toNat + 156 ≤ userRamStart.toNat ∧ LoadInv c.marked ctx c.world c.action := by
  induction h with
  | submit hctx hkernel => exact ⟨hkernel, LoadSys.submit_inv hctx⟩
  | others _ hpost hw ih =>
    obtain ⟨hkernel, hinv⟩ := ih
    rw [hpost] at hinv
    refine ⟨hkernel, ?_⟩
    dsimp only
    rw [hpost]
    exact fun status => (hinv status).leftAlone hw
  | complete rx status _ hpost ih =>
    obtain ⟨hkernel, hinv⟩ := ih
    rw [hpost] at hinv
    exact ⟨hkernel, hinv status⟩
  | run _ hcall hok ih =>
    obtain ⟨hkernel, hinv⟩ := ih
    rw [hcall] at hinv
    exact ⟨hkernel, (LoadHolds.run hinv hkernel hok).inv⟩

/-- What a callback writes to a segment is in its blocks. -/
theorem LoadHolds.segmentWrite {c : LoadSys} (h : LoadHolds c.marked ctx c.world k status)
    (hok : c.Fitting k status) {p : Ptr} {n : Nat} (hwrite : c.segmentWrite k status = some (p, n)) :
    ∀ i < n, InBlocks (c.run d k status).marked (p + BitVec.ofNat 32 i) := by
  rw [LoadSys.segmentWrite] at hwrite
  by_cases hcall : CallsUalloc k status c.world
  · -- the segment is cleared
    rw [if_pos hcall] at hwrite
    dsimp only at hwrite
    split at hwrite
    · cases hwrite
    · rename_i hne
      obtain ⟨rfl, rfl⟩ := Prod.mk.inj (Option.some.inj hwrite)
      obtain ⟨-, hmemsz, hin⟩ := inBlocks_ualloc ((hok hcall).resolve_left hne).1 hne
      rw [LoadSys.run, if_pos hcall]
      exact fun i hi => hin i (by omega)
  · rw [if_neg hcall] at hwrite
    split at hwrite
    · -- a part of its contents is copied
      rename_i hcopy
      obtain ⟨cb, r⟩ := k
      obtain ⟨rfl, rfl, -, -, hstate⟩ := hcopy
      obtain ⟨rfl, rfl⟩ := Prod.mk.inj (Option.some.inj hwrite)
      obtain ⟨-, hctx, hfile, -⟩ := h.serves
      dsimp only at hctx hfile hstate ⊢
      rw [hctx] at hstate
      obtain ⟨n, -, hle, hin⟩ := (h.ready rfl).bytesToCopy_le
      dsimp only at hle hin
      rw [LoadSys.run, if_neg hcall, hfile]
      intro i hi
      have htarget := hin i (by omega)
      rwa [Target, if_pos hstate] at htarget
    · cases hwrite

end Invariant

/-- **A load whose segments fit writes nowhere else.**  In every run of a load, whatever the sectors
hold, however the reads end and whatever else happens in between: if every segment for which there is
memory fits, as its header has it, then every byte that is cleared or copied for a segment is in the
blocks that `ualloc` has marked for it, and no other byte changes but those of the load's headers. -/
theorem elf_confined (d : FatDriver) (ctx : Ptr) (c : LoadSys) (k : FsClosure) (status : Int)
    (h : LoadReach LoadSys.Fitting d ctx c) (hcall : c.action = .call k status)
    (hok : c.Fitting k status) : c.Confined d ctx k status := by
  obtain ⟨hkernel, hinv⟩ := h.inv
  rw [hcall] at hinv
  exact ⟨fun p n hwrite => LoadHolds.segmentWrite hinv hok hwrite,
    (LoadHolds.run hinv hkernel hok).mem⟩

/-! ### Two loads

The first executable is the one above whose text is its own table; in the second, the text has a
hundred bytes in the file and asks for four. -/

/-- The load on its own: a sector asked for is read, a callback called. -/
def LoadSys.advance (d : FatDriver) (disk : Word → Sector) (c : LoadSys) : LoadSys :=
  match c.action with
  | .post b k => { c with rx := disk b, action := .call k 0 }
  | .call k status => c.run d k status
  | .stop => c

/-- The callback to be called next, if any, meets the condition. -/
def LoadSys.nextFits (c : LoadSys) : Bool :=
  match c.action with
  | .call k status => decide (c.Fitting k status)
  | .post .. | .stop => true

/-- The load of `A`, after `n` steps. -/
def loadSysAfter (disk : Word → Sector) (n : Nat) : LoadSys :=
  (LoadSys.advance smallDriver disk)^[n]
    (.submit smallDriver (pathOf [nameA]) 0x700 (fun _ => 0) emptyWorld emptyBitmap)

theorem loadSysAfter_reach {P : LoadSys → FsClosure → Int → Prop} {disk : Word → Sector} {n : Nat}
    (hok : ∀ i < n, ∀ k status, (loadSysAfter disk i).action = .call k status →
      P (loadSysAfter disk i) k status) :
    LoadReach P smallDriver 0x1000 (loadSysAfter disk n) := by
  induction n with
  | zero => exact .submit rfl (by decide)
  | succ n ih =>
    have hreach := ih fun i hi => hok i (by omega)
    have hlast := hok n (Nat.lt_succ_self n)
    rw [loadSysAfter, Function.iterate_succ_apply', ← loadSysAfter, LoadSys.advance]
    split
    · rename_i hpost
      exact hreach.complete _ _ hpost
    · rename_i hcall
      exact hreach.run hcall (hlast _ _ hcall)
    · exact hreach

/-- The card with the second. -/
def overfullDisk : Word → Sector :=
  elfDisk ⟨1, 116, 0x10000, 0, 100, 4, 5, 4⟩ ⟨1, 120, 0x20000, 0, 4, 8, 6, 4⟩ [9, 9, 9, 9, 7, 7, 7, 7]

/-- Both segments of the first are loaded to blocks of their own.  Here the contents of its data are
copied, to the third. -/
theorem elf_confined_overlapping :
    let c := loadSysAfter overlappingElf.disk 19
    let k : FsClosure := (.fsReadStep, 0x1600)
    c.action = .call k 0 ∧ c.segmentWrite k 0 = some (0x40080, 4) ∧
      c.Confined smallDriver 0x1000 k 0 := by
  have hfits : ∀ i < 20, (loadSysAfter overlappingElf.disk i).nextFits = true := by decide +kernel
  have hok : ∀ i < 20, ∀ k status, (loadSysAfter overlappingElf.disk i).action = .call k status →
      (loadSysAfter overlappingElf.disk i).Fitting k status := by
    intro i hi k status hcall
    have h := hfits i hi
    rw [LoadSys.nextFits, hcall] at h
    exact of_decide_eq_true h
  have hcall : (loadSysAfter overlappingElf.disk 19).action = .call (.fsReadStep, 0x1600) 0 := by
    decide +kernel
  exact ⟨hcall, by decide +kernel,
    elf_confined smallDriver 0x1000 _ _ _ (loadSysAfter_reach fun i hi => hok i (by omega)) hcall
      (hok 19 (by decide) _ _ hcall)⟩

/-- The second is copied beyond the one block it has. -/
theorem elf_overruns_blocks :
    ¬ ∀ (d : FatDriver) (ctx : Ptr) (c : LoadSys) (k : FsClosure) (status : Int),
      LoadReach (fun _ _ _ => True) d ctx c → c.action = .call k status → c.Confined d ctx k status := by
  intro h
  have hcall : (loadSysAfter overfullDisk 12).action = .call (.fsReadStep, 0x1400) 0 := by
    decide +kernel
  have hwrite : (loadSysAfter overfullDisk 12).segmentWrite (.fsReadStep, 0x1400) 0 =
      some (0x40000, 100) := by decide +kernel
  have hout : ¬ InBlocks ((loadSysAfter overfullDisk 12).run smallDriver (.fsReadStep, 0x1400) 0).marked
      (0x40000 + BitVec.ofNat 32 64) := by decide +kernel
  have hreach : LoadReach (fun _ _ _ => True) smallDriver 0x1000 (loadSysAfter overfullDisk 12) :=
    loadSysAfter_reach fun _ _ _ _ _ => trivial
  exact hout ((h _ _ _ _ _ hreach hcall).1 _ _ hwrite 64 (by decide))

end RiscyOS
