import RiscyOS.Fs.ElfConfined

/-!
# What a load takes and gives back

A load takes a context and one operation's context after another from the kernel heap, and for each
segment a region's record and a run of user memory.  All of it is to be gone when the load fails, and
all but the two regions of the process when it succeeds; and `elf_finish` is the one place that sees
to it.

It frees the records that the image has, and nothing else: not the memory of the segments, nor the
record of a segment that another one of its kind has taken the place of.  So a load that fails leaks
unless it fails early, and one that succeeds leaks unless there was one segment of each kind; besides
it releases the regions that the process had before, through `ufree`.  `elf_leak_iff` says it in full,
for every state in which a load can be.

The books (`LoadBooks`) have the heap and the bitmap beside the load, and what all others have of
both.  Others may allocate and free whatever they like while the load waits, the scheduler's requests
included, as long as it is theirs.  What is carried along a run is that the blocks of the heap are the
loader's context, the contexts of the operation under way (`pendingBlocks`), the records of the load's
regions, and what others have (`Carries`); and that the bits set are those of these regions, and what
others have (`Accounts`).
-/

set_option autoImplicit false

namespace RiscyOS

open Memory Callback Bitmap FsEffect

/-! ## Regions -/

/-- The number of bits that `ualloc` marks for `n` bytes. -/
def markedBits (n : Word) : Int := (sizeToBits (roundNextPowerOfTwo n)).toInt

/-- The bits that `ualloc` has marked for a region. -/
def regionBits (r : MemoryRegion) : Set Int :=
  if r.regionSize = 0 then ∅ else blockBits (r.physicalBase, markedBits r.regionSize)

/-- The bits that `ufree` clears for it: for the first block of user memory, as many from there on as
its size gives when it is not rounded, and for any other none. -/
def clearedBits (r : MemoryRegion) : Set Int :=
  if r.regionSize = 0 ∨ r.physicalBase ≠ userRamStart then ∅
  else Set.Ico 0 (sizeToBits r.regionSize).toInt

/-- The bits of some regions, by their records. -/
def recordBits (w : FsWorld) (ps : List Ptr) : Set Int := ⋃ p ∈ ps, regionBits (w.region p)

/-- A region whose memory is from `ualloc`. -/
def FromUalloc (r : MemoryRegion) : Prop :=
  r.regionSize = 0 ∨ ∃ s : Int, 0 ≤ s ∧ 1 ≤ markedBits r.regionSize ∧
    s + markedBits r.regionSize ≤ numBlocks ∧ r.physicalBase = blockAddr s

/-- The regions of a process image. -/
def ProcessImage.regions (image : ProcessImage) : List Ptr :=
  [image.ptextMemoryRegion, image.pdataMemoryRegion].filter (· ≠ null)

/-- The region that `release_memory_segment` frees, if it does. -/
def releasedRegion (p : Ptr) (w : FsWorld) : List MemoryRegion :=
  if p = null then [] else if (w.region p).referenceCount - 1 = 0 then [w.region p] else []

/-- The regions that a load that succeeds frees: those the process had, if nobody else has them. -/
def elfReleased (ctx : Ptr) (w : FsWorld) : List MemoryRegion :=
  let p := w.pcb (w.elfCtx ctx).pcb
  releasedRegion p.ptextMemoryRegion w ++
    releasedRegion p.pdataMemoryRegion (releaseMemorySegment p.ptextMemoryRegion w)

/-- `ufree`, for each of some regions. -/
def ufreeRegions (rs : List MemoryRegion) (allocBitmap : Bits) : Bits :=
  rs.foldl (fun m r => ufree r.physicalBase r.regionSize m) allocBitmap

/-- The state in which `elf_step` runs `elf_finish`, if it does. -/
def elfFinishState (ctx : Ptr) (status : Int) (w : FsWorld) : Option ElfState :=
  if status ≠ 0 then some .error else
    match (w.elfCtx ctx).state with
    | .readingHeader =>
      if elfValidateHeader (loadEhdr w.mem (elfHeader ctx)) = 0 then some .error else none
    | .readPheader =>
      if (elfPhdr w ctx).pType ≠ ptLoad then none
      else if w.kmallocRegions 0 = null ∨ w.uallocs 0 = null then some .error else none
    | .closing => some .done
    | .opening | .loadPheader | .seekPcontent | .loadPcontent | .done | .error => none

/-- The record that a segment takes the place of, if there is one. -/
def replacedRegion (ctx : Ptr) (w : FsWorld) : List Ptr :=
  let image := (w.elfCtx ctx).tmpImage
  [if (elfPhdr w ctx).pFlags &&& pfX ≠ 0 then image.ptextMemoryRegion
    else image.pdataMemoryRegion].filter (· ≠ null)

/-! ## The books -/

/-- What all others have: the bits of user memory, and the blocks of the heap. -/
structure Elsewhere where
  bits : Set Int
  blocks : List (BlockKind × Ptr)

/-- A load on its way, with the heap, the records it has allocated and then lost hold of, and what all
others have. -/
structure LoadBooks extends LoadSys where
  heap : Ledger BlockKind Ptr
  replaced : List Ptr
  elsewhere : Elsewhere

/-- The world that the callback `k` sees: if it calls `ualloc`, with what that is about to hand out. -/
def LoadSys.stocked (c : LoadSys) (k : FsClosure) (status : Int) : FsWorld :=
  if CallsUalloc k status c.world then
    { c.world with uallocs := fun _ => (ualloc (elfPhdr c.world k.2).pMemsz c.allocBitmap).1 }
  else c.world

namespace LoadBooks

/-- `elf_load_submit`. -/
def submit (d : FatDriver) (path : List Byte) (pcb : Ptr) (rx : Sector) (w : FsWorld) (m : Bits)
    (L : Ledger BlockKind Ptr) : LoadBooks :=
  { LoadSys.submit d path pcb rx w m with
    heap := (elfLoadSubmitEffects w).foldl applyHeap L
    replaced := []
    elsewhere := ⟨usedBits m, L.blocks⟩ }

/-- The state in which the callback `k` runs `elf_finish`, if it does. -/
def finishState (c : LoadBooks) (k : FsClosure) (status : Int) : Option ElfState :=
  if k.1 = .elfStep then elfFinishState k.2 status (c.stocked k status) else none

/-- The callback `k`, with what it does to the heap and to the bitmap. -/
def run (d : FatDriver) (k : FsClosure) (status : Int) (c : LoadBooks) : LoadBooks :=
  let s := c.toLoadSys.run d k status
  { s with
    allocBitmap := if c.finishState k status = some .done then
        ufreeRegions (elfReleased k.2 c.world) s.allocBitmap
      else s.allocBitmap
    heap := (fsCodeEffects d c.rx k status (c.stocked k status)).foldl applyHeap c.heap
    replaced := if CallsUalloc k status c.world ∧ (c.stocked k status).uallocs 0 ≠ null then
        c.replaced ++ replacedRegion k.2 c.world
      else c.replaced
    elsewhere := c.elsewhere }

/-- The records that the load at `ctx` has allocated. -/
def regions (ctx : Ptr) (c : LoadBooks) : List Ptr :=
  (c.world.elfCtx ctx).tmpImage.regions ++ c.replaced

end LoadBooks

/-! ## Runs -/

/-- The regions of the process whose image is loaded are among what others have, and their memory is
from `ualloc`. -/
def Held (w : FsWorld) (pcb : Ptr) (e : Elsewhere) : Prop :=
  ∀ p, p = (w.pcb pcb).ptextMemoryRegion ∨ p = (w.pcb pcb).pdataMemoryRegion → p ≠ null →
    (.region, p) ∈ e.blocks ∧ FromUalloc (w.region p) ∧ regionBits (w.region p) ⊆ e.bits

/-- What `kmalloc` hands out for the load at `ctx`: a place where there is nothing, and that is not
within the loader's context.  For a region's record there may be none. -/
structure Supplied (ctx : Ptr) (L : Ledger BlockKind Ptr) (w : FsWorld) : Prop where
  context : ¬ L.Live (w.kmallocs 0) ∧ w.kmallocs 0 ≠ elfFile ctx
  region : w.kmallocRegions 0 = null ∨ ¬ L.Live (w.kmallocRegions 0) ∧
    w.kmallocRegions 0 ≠ elfFile ctx ∧ w.kmallocRegions 0 ≠ w.kmallocs 0

instance (ctx : Ptr) (L : Ledger BlockKind Ptr) (w : FsWorld) : Decidable (Supplied ctx L w) :=
  decidable_of_iff (_ ∧ _) ⟨fun h => ⟨h.1, h.2⟩, fun h => ⟨h.1, h.2⟩⟩

/-- What all others keep to while a load waits: they allocate and free what is theirs. -/
structure Others (ctx : Ptr) (c : LoadBooks) (w : FsWorld) (m : Bits) (L : Ledger BlockKind Ptr)
    (e : Elsewhere) : Prop where
  regions : ∀ p ∈ c.regions ctx, w.region p = c.world.region p
  bits : usedBits m \ e.bits = usedBits c.allocBitmap \ c.elsewhere.bits
  used : e.bits ⊆ usedBits m
  wellFormed : L.WellFormed
  blocks : ∀ l, c.heap.blocks.Perm (l ++ c.elsewhere.blocks) → L.blocks.Perm (l ++ e.blocks)
  room : ¬ L.Live (elfFile ctx)
  held : Held w (w.elfCtx ctx).pcb e

/-- The states of a load whose context is at `ctx`.  A sector asked for arrives with any contents and
any status, and until then anything may happen elsewhere. -/
inductive BooksReach (d : FatDriver) (ctx : Ptr) : LoadBooks → Prop
  | submit {path : List Byte} {pcb : Ptr} {rx : Sector} {w : FsWorld} {m : Bits}
      {L : Ledger BlockKind Ptr} (hctx : w.kmallocs 0 = ctx) (hL : L.WellFormed)
      (hfree : ¬ L.Live ctx ∧ ¬ L.Live (elfFile ctx))
      (hnext : ¬ L.Live (w.kmallocs 1) ∧ w.kmallocs 1 ≠ ctx ∧ w.kmallocs 1 ≠ elfFile ctx)
      (hheld : Held w pcb ⟨usedBits m, L.blocks⟩) : BooksReach d ctx (.submit d path pcb rx w m L)
  | others {c : LoadBooks} {b : Word} {k : FsClosure} {w : FsWorld} {m : Bits}
      {L : Ledger BlockKind Ptr} {e : Elsewhere} (hc : BooksReach d ctx c)
      (hpost : c.action = .post b k) (hw : LeftAlone ctx k c.world w) (ho : Others ctx c w m L e) :
      BooksReach d ctx { c with world := w, allocBitmap := m, heap := L, elsewhere := e }
  | complete {c : LoadBooks} {b : Word} {k : FsClosure} (rx : Sector) (status : Int)
      (hc : BooksReach d ctx c) (hpost : c.action = .post b k) :
      BooksReach d ctx { c with rx := rx, action := .call k status }
  | run {c : LoadBooks} {k : FsClosure} {status : Int} (hc : BooksReach d ctx c)
      (hcall : c.action = .call k status) (hs : Supplied ctx c.heap c.world) :
      BooksReach d ctx (c.run d k status)

/-! ## The operation under way -/

/-- The contexts of the operation that `k` goes on with: its own, and if it is a seek on behalf of a
read, that of the read. -/
def pendingBlocks (w : FsWorld) (k : FsClosure) : List (BlockKind × Ptr) :=
  match k.1 with
  | .fsOpenStep => [(.context .fsOpenStep, k.2)]
  | .fsReadStep => [(.context .fsReadStep, k.2)]
  | .fsSeekStep => (.context .fsSeekStep, k.2) ::
      if (w.seekCtx k.2).onComplete = .fsReadStep then
        [(.context .fsReadStep, (w.seekCtx k.2).callerCtx)]
      else []
  | .elfStep | .client => []

/-- `k` is the loader at `ctx`, or an operation that will call it. -/
def WorksFor (ctx : Ptr) (w : FsWorld) (k : FsClosure) : Prop :=
  match k.1 with
  | .elfStep => k.2 = ctx
  | .fsReadStep => (w.readCtx k.2).callback = .elfStep ∧ (w.readCtx k.2).ctx = ctx
  | .fsOpenStep => (w.openCtx k.2).onComplete = some .elfStep ∧ (w.openCtx k.2).callerCtx = ctx ∧
      (w.openCtx k.2).procId = 0
  | .fsSeekStep =>
      ((w.seekCtx k.2).onComplete = .elfStep ∧ (w.seekCtx k.2).callerCtx = ctx) ∨
      ((w.seekCtx k.2).onComplete = .fsReadStep ∧
        (w.readCtx (w.seekCtx k.2).callerCtx).callback = .elfStep ∧
        (w.readCtx (w.seekCtx k.2).callerCtx).ctx = ctx)
  | .client => False

/-- **The heap**, when the load at `ctx` goes on with `k`: the contexts of the operation under way, and
the rest. -/
structure Carries (ctx : Ptr) (rest : List (BlockKind × Ptr)) (w : FsWorld) (k : FsClosure)
    (L : Ledger BlockKind Ptr) : Prop where
  works : WorksFor ctx w k
  wellFormed : L.WellFormed
  blocks : L.blocks.Perm (pendingBlocks w k ++ rest)
  room : ¬ L.Live (elfFile ctx)

/-- The same, by what is to be done next. -/
def CarriesOn (ctx : Ptr) (rest : List (BlockKind × Ptr)) (w : FsWorld) (L : Ledger BlockKind Ptr) :
    FsAction → Prop
  | .post _ k | .call k _ => Carries ctx rest w k L
  | .stop => True

/-- What most functions leave alone: the image, the process, and its regions. -/
structure KeepsImage (ctx : Ptr) (w w' : FsWorld) : Prop where
  image : (w'.elfCtx ctx).tmpImage = (w.elfCtx ctx).tmpImage
  target : (w'.elfCtx ctx).pcb = (w.elfCtx ctx).pcb
  region : w'.region = w.region
  pcb : w'.pcb = w.pcb

/-- The rest: the loader's context, the records of its regions, and what others have. -/
def LoadBooks.rest (ctx : Ptr) (c : LoadBooks) : List (BlockKind × Ptr) :=
  (.context .elfStep, ctx) :: ((c.regions ctx).map (Prod.mk BlockKind.region) ++ c.elsewhere.blocks)

/-- **The bitmap**: the bits set are those of the load's regions and what others have; no two of these
meet; and the process has its regions. -/
structure Accounts (ctx : Ptr) (c : LoadBooks) : Prop where
  bits : usedBits c.allocBitmap = recordBits c.world (c.regions ctx) ∪ c.elsewhere.bits
  apart : Disjoint (recordBits c.world (c.regions ctx)) c.elsewhere.bits
  pairwise : (c.regions ctx).Pairwise fun p q =>
    Disjoint (regionBits (c.world.region p)) (regionBits (c.world.region q))
  made : ∀ p ∈ c.regions ctx, FromUalloc (c.world.region p)
  held : Held c.world (c.world.elfCtx ctx).pcb c.elsewhere

/-- **The invariant** of the books, while the load is on its way. -/
def LoadBooks.Inv (ctx : Ptr) (c : LoadBooks) : Prop :=
  c.action ≠ .stop →
    Accounts ctx c ∧ CarriesOn ctx (c.rest ctx) c.world c.heap c.action

/-- What a step function may leave, that does not end the load. -/
structure Passes (ctx : Ptr) (rest : List (BlockKind × Ptr)) (w : FsWorld) (L : Ledger BlockKind Ptr)
    (es : List FsEffect) (r : FsWorld × FsAction) : Prop where
  keeps : KeepsImage ctx w r.1
  carries : CarriesOn ctx rest r.1 (es.foldl applyHeap L) r.2

/-! ## Leaks -/

/-- The bits of the region at `p`, if there is one. -/
def regionBitsAt (w : FsWorld) (p : Ptr) : Set Int := if p = null then ∅ else regionBits (w.region p)

/-- The bits of the regions of a process. -/
def processBits (w : FsWorld) (pcb : Ptr) : Set Int :=
  regionBitsAt w (w.pcb pcb).ptextMemoryRegion ∪ regionBitsAt w (w.pcb pcb).pdataMemoryRegion

/-- **Nothing leaks** when `k` is called: if it ends the load in `ELF_ERROR`, then afterwards the bits
set and the blocks in use are those that others have; and if in `ELF_DONE`, then the bits are those
that others have, but for the regions released, and those of the regions that the process has now. -/
def LoadBooks.NoLeak (d : FatDriver) (c : LoadBooks) (k : FsClosure) (status : Int) : Prop :=
  (c.finishState k status = some .error →
    usedBits (c.run d k status).allocBitmap = c.elsewhere.bits ∧
      (c.run d k status).heap.blocks.Perm c.elsewhere.blocks) ∧
  (c.finishState k status = some .done →
    usedBits (c.run d k status).allocBitmap =
      (c.elsewhere.bits \ ⋃ r ∈ elfReleased k.2 c.world, regionBits r) ∪
        processBits (c.run d k status).world (c.world.elfCtx k.2).pcb)

/-- **When nothing does.**  If the load fails, then no segment has been given memory yet, and none has
taken the place of another.  If it succeeds, then the bits that are cleared for the regions released,
as far as they are in use, are those of these regions, and of the regions of the segments that others
have taken the place of. -/
def LoadBooks.Tidy (c : LoadBooks) (k : FsClosure) (status : Int) : Prop :=
  (c.finishState k status = some .error →
    c.replaced = [] ∧
      ∀ p ∈ (c.world.elfCtx k.2).tmpImage.regions, (c.world.region p).regionSize = 0) ∧
  (c.finishState k status = some .done →
    (usedBits c.allocBitmap ∩ ⋃ r ∈ elfReleased k.2 c.world, clearedBits r) =
      (⋃ r ∈ elfReleased k.2 c.world, regionBits r) ∪ recordBits c.world c.replaced)

section Leak

variable {d : FatDriver} {ctx : Ptr} {w w' : FsWorld} {k : FsClosure} {status : Int} {rx : Sector}
  {rest : List (BlockKind × Ptr)} {L L' : Ledger BlockKind Ptr} {m : Bits} {n : Word}

/-! ## Bits -/

/-- **What `ualloc` hands out** is marked, and was not before; or nothing is, and nothing changes. -/
theorem ualloc_region (m : Bits) (n : Word) :
    (ualloc n m).1 = null ∧ (ualloc n m).2 = m ∨
    (ualloc n m).1 ≠ null ∧ FromUalloc ⟨(ualloc n m).1, n, 1⟩ ∧
      usedBits (ualloc n m).2 = regionBits ⟨(ualloc n m).1, n, 1⟩ ∪ usedBits m ∧
      Disjoint (regionBits ⟨(ualloc n m).1, n, 1⟩) (usedBits m) := by
  by_cases hn : n = 0
  · subst hn
    have heq : ualloc 0 m = (1, m) := if_pos rfl
    rw [heq, regionBits, if_pos rfl]
    exact Or.inr ⟨show (1 : Word) ≠ 0 by decide, Or.inl rfl, (Set.empty_union _).symm, Set.empty_disjoint _⟩
  have heq : ualloc n m = uallocTryBlock (markedBits n) m := by rw [ualloc, if_neg hn, markedBits]
  rw [heq]
  rcases uallocTryBlock_cases (markedBits n) m with ⟨s, hk, h0, hle, hrun, -, hs⟩ | ⟨-, hs⟩
  · have hbits : regionBits ⟨blockAddr s, n, 1⟩ = Set.Ico s (s + markedBits n) := by
      rw [regionBits, if_neg hn, blockBits, blockBit_blockAddr h0 (by omega)]
    rw [hs]
    dsimp only
    rw [hbits]
    refine Or.inr ⟨blockAddr_ne_null h0 (by omega), Or.inr ⟨s, h0, hk, hle, rfl⟩,
      usedBits_markBitsUsed h0 hle, ?_⟩
    rw [Set.disjoint_left]
    rintro b ⟨hb, hlt⟩ hused
    exact Bool.false_ne_true ((hrun b hb hlt).symm.trans hused.2.2)
  · rw [hs]
    exact Or.inl ⟨rfl, rfl⟩

/-- Bits are marked for every region of one byte or more. -/
theorem regionBits_eq_empty_iff {r : MemoryRegion} (h : FromUalloc r) :
    regionBits r = ∅ ↔ r.regionSize = 0 := by
  rw [regionBits]
  split
  · exact iff_of_true rfl ‹_›
  · rename_i hne
    refine iff_of_false (Set.Nonempty.ne_empty ?_) hne
    obtain ⟨s, -, hpos, -, -⟩ := h.resolve_left hne
    exact ⟨blockBit r.physicalBase, le_rfl, by dsimp only; omega⟩

/-- **`ufree`** of a region that `ualloc` has handed out. -/
theorem usedBits_ufree {r : MemoryRegion} (h : FromUalloc r) :
    usedBits (ufree r.physicalBase r.regionSize m) = usedBits m \ clearedBits r := by
  rw [ufree, clearedBits]
  by_cases hsize : r.regionSize = 0
  · rw [if_pos hsize, if_pos (Or.inl hsize), Set.sdiff_empty]
  obtain ⟨s, h0, hpos, hle, hbase⟩ := h.resolve_left hsize
  have hlt : s < numBlocks := by omega
  rw [if_neg hsize, hbase, ufreeStart_eq h0 hlt]
  rcases eq_or_ne s 0 with rfl | hs
  · have hfirst : blockAddr 0 = userRamStart := by decide
    rw [if_pos rfl, usedBits_markBitsFree le_rfl, hfirst, if_neg (by simpa using hsize), zero_add]
  · -- the bits cleared are after the end of the bitmap
    have hnot : blockAddr s ≠ userRamStart := by
      intro heq
      have haddr := blockAddr_toNat h0 hlt
      rw [heq] at haddr
      change (0x40000 : Int) = _ at haddr
      omega
    rw [if_neg hs, if_pos (Or.inr hnot), usedBits_markBitsFree (by omega), Set.sdiff_empty]
    refine sdiff_eq_left.2 (Set.disjoint_left.2 fun b hb hc => ?_)
    have := hb.2.1
    have := hc.1
    omega

theorem usedBits_ufreeRegions : ∀ (rs : List MemoryRegion) (m : Bits), (∀ r ∈ rs, FromUalloc r) →
    usedBits (ufreeRegions rs m) = usedBits m \ ⋃ r ∈ rs, clearedBits r
  | [], m, _ => by simp [ufreeRegions]
  | r :: rs, m, h => by
    have ih := usedBits_ufreeRegions rs (ufree r.physicalBase r.regionSize m) fun r' hr' =>
      h r' (List.mem_cons_of_mem r hr')
    rw [ufreeRegions] at ih ⊢
    rw [List.foldl_cons, ih, usedBits_ufree (h r List.mem_cons_self), Set.sdiff_sdiff]
    simp

/-! ## The heap -/

theorem KeepsImage.refl : KeepsImage ctx w w := ⟨rfl, rfl, rfl, rfl⟩

theorem KeepsImage.trans {w'' : FsWorld} (h : KeepsImage ctx w w') (h' : KeepsImage ctx w' w'') :
    KeepsImage ctx w w'' :=
  ⟨h'.image.trans h.image, h'.target.trans h.target, h'.region.trans h.region, h'.pcb.trans h.pcb⟩

/-- What is freed is gone, and nothing else. -/
theorem perm_free {b : BlockKind × Ptr} {l : List (BlockKind × Ptr)} (h : L.WellFormed)
    (hperm : L.blocks.Perm (b :: l)) : (L.apply (.free b.2)).blocks.Perm l := by
  have hb : b ∈ L.blocks := hperm.mem_iff.2 List.mem_cons_self
  exact List.Perm.cons_inv ((h.perm_free hb).symm.trans hperm)

/-- Freeing what is not there does nothing. -/
theorem blocks_free_of_not_live {p : Ptr} (h : ¬ L.Live p) : (L.apply (.free p)).blocks = L.blocks := by
  rw [Ledger.apply]
  refine List.filter_eq_self.2 fun b hb => decide_eq_true ?_
  rintro rfl
  exact h (Ledger.live_of_mem hb)

/-- What is freed at once leaves no trace. -/
theorem blocks_alloc_free {t : BlockKind} {p : Ptr} (h : ¬ L.Live p) :
    ((L.apply (.alloc t p)).apply (.free p)).blocks = L.blocks := by
  rw [← blocks_free_of_not_live h]
  rw [Ledger.apply, Ledger.apply, Ledger.apply, List.filter_cons_of_neg (by simp)]

/-- Looking at a context does nothing to the blocks. -/
theorem blocks_of_touches {p : Ptr} {es : List FsEffect} (h : Touches p es)
    (L : Ledger BlockKind Ptr) : (es.foldl applyHeap L).blocks = L.blocks := by
  induction es generalizing L with
  | nil => rfl
  | cons e es ih =>
    rw [List.foldl_cons, ih (fun e' he' => h e' (List.mem_cons_of_mem e he'))]
    rcases h e List.mem_cons_self with rfl | ⟨c, rfl⟩
    · rfl
    · rfl

namespace Carries

variable {k' : FsClosure}

/-- Only the blocks matter. -/
theorem of_blocks (h : Carries ctx rest w k L) (hb : L'.blocks = L.blocks) :
    Carries ctx rest w k L' := by
  refine ⟨h.works, ?_, hb ▸ h.blocks, ?_⟩
  · rw [Ledger.WellFormed, hb]
    exact h.wellFormed
  · rw [Ledger.Live, hb]
    exact h.room

/-- The operation goes on. -/
theorem stay (h : Carries ctx rest w k L) (hworks : WorksFor ctx w' k')
    (hpending : pendingBlocks w' k' = pendingBlocks w k) : Carries ctx rest w' k' L :=
  ⟨hworks, h.wellFormed, hpending ▸ h.blocks, h.room⟩

/-- **A new operation**, with a context of its own, on behalf of `k`. -/
theorem start {t : FsCallback} {p : Ptr} (h : Carries ctx rest w k L)
    (hfree : ¬ L.Live p ∧ p ≠ elfFile ctx)
    (hb : L'.blocks = (.context t, p) :: L.blocks) (hworks : WorksFor ctx w' k')
    (hpending : pendingBlocks w' k' = (.context t, p) :: pendingBlocks w k) :
    Carries ctx rest w' k' L' := by
  refine ⟨hworks, ?_, ?_, ?_⟩
  · rw [Ledger.WellFormed, hb]
    exact List.nodup_cons.2 ⟨hfree.1, h.wellFormed⟩
  · rw [hb, hpending]
    exact h.blocks.cons _
  · rw [Ledger.Live, hb, List.map_cons, List.mem_cons, not_or]
    exact ⟨hfree.2.symm, h.room⟩

/-- **An operation completes**, and its context is freed. -/
theorem finish {t : FsCallback} {p : Ptr} (h : Carries ctx rest w k L)
    (hb : L'.blocks = (L.apply (.free p)).blocks) (hworks : WorksFor ctx w' k')
    (hpending : pendingBlocks w k = (.context t, p) :: pendingBlocks w' k') :
    Carries ctx rest w' k' L' := by
  have hperm := h.blocks
  rw [hpending] at hperm
  refine ⟨hworks, ?_, ?_, fun hlive => ?_⟩
  · rw [Ledger.WellFormed, hb]
    exact h.wellFormed.free
  · rw [hb]
    exact perm_free h.wellFormed hperm
  · rw [Ledger.Live, hb] at hlive
    obtain ⟨b, hmem, heq⟩ := List.mem_map.1 hlive
    exact h.room (heq ▸ Ledger.live_of_mem (Ledger.mem_free.1 hmem).1)

end Carries

/-- Whom a loader or a read works for is in these maps. -/
theorem worksFor_of_eq (hkind : k.1 = .elfStep ∨ k.1 = .fsReadStep) (h : WorksFor ctx w k)
    (hread : w'.readCtx = w.readCtx) : WorksFor ctx w' k := by
  obtain ⟨cb, p⟩ := k
  rcases hkind with hk | hk <;> cases hk
  · exact h
  · rwa [WorksFor, hread]

theorem pendingBlocks_of_eq (hkind : k.1 = .elfStep ∨ k.1 = .fsReadStep) :
    pendingBlocks w' k = pendingBlocks w k := by
  obtain ⟨cb, p⟩ := k
  rcases hkind with hk | hk <;> cases hk <;> rfl

/-! ### Seeks -/

theorem keeps_seekSubmit (d : FatDriver) (file : Ptr) (t : Word) (cb : FsCallback) (cctx : Ptr)
    (w : FsWorld) : KeepsImage ctx w (fsSeekSubmit d file t cb cctx w).1 ∧
      (fsSeekSubmit d file t cb cctx w).1.readCtx = w.readCtx := by
  rcases fsSeekSubmit_cases d file t cb cctx w with h | ⟨-, h | ⟨start, skip, -, h⟩⟩
  · rw [h]
    exact ⟨.refl, rfl⟩
  · rw [h]
    exact ⟨⟨rfl, rfl, rfl, rfl⟩, rfl⟩
  · rw [h]
    exact ⟨⟨rfl, rfl, rfl, rfl⟩, rfl⟩

theorem keeps_seekWhence (d : FatDriver) (file : Ptr) (off : Word) (whence : Option SeekWhence)
    (cb : FsCallback) (cctx : Ptr) (w : FsWorld) :
    KeepsImage ctx w (fsSeekWhence d file off whence cb cctx w).1 ∧
      (fsSeekWhence d file off whence cb cctx w).1.readCtx = w.readCtx := by
  rw [fsSeekWhence]
  split
  · exact keeps_seekSubmit d file _ cb cctx w
  · exact ⟨.refl, rfl⟩

/-- **A seek is started**, or done at once. -/
theorem carries_seekWhence {file : Ptr} {off : Word} {whence : Option SeekWhence}
    (hkind : k.1 = .elfStep ∨ k.1 = .fsReadStep) (h : Carries ctx rest w k L)
    (hfree : ¬ L.Live (w.kmallocs 0) ∧ w.kmallocs 0 ≠ elfFile ctx) :
    CarriesOn ctx rest (fsSeekWhence d file off whence k.1 k.2 w).1
      ((fsSeekWhenceEffects d file off whence w).foldl applyHeap L)
      (fsSeekWhence d file off whence k.1 k.2 w).2 := by
  have hread := (@keeps_seekWhence ctx d file off whence k.1 k.2 w).2
  rcases fsSeekWhence_spec d file off whence k.1 k.2 w with
    ⟨hes, ⟨st, hact⟩, -⟩ | ⟨c, lba, hes, hact, -, hcb, hctx⟩
  · rw [hes, hact]
    exact h.stay (worksFor_of_eq hkind h.works hread) (pendingBlocks_of_eq hkind)
  · rw [hes, hact]
    have hworks := worksFor_of_eq hkind h.works hread
    refine h.start (t := .fsSeekStep) hfree rfl ?_ ?_
    · rw [WorksFor]
      dsimp only
      rw [hcb, hctx]
      obtain ⟨cb, p⟩ := k
      rcases hkind with hk | hk <;> cases hk
      · exact Or.inl ⟨rfl, hworks⟩
      · exact Or.inr ⟨rfl, hworks⟩
    · rw [pendingBlocks]
      dsimp only
      rw [hcb, hctx]
      obtain ⟨cb, p⟩ := k
      rcases hkind with hk | hk <;> cases hk
      · rfl
      · rfl

/-- **The step of a seek.** -/
theorem passes_seekStep {q : Ptr} (h : Carries ctx rest w (.fsSeekStep, q) L) :
    Passes ctx rest w L (fsSeekStepEffects d rx q status w) (fsSeekStep d rx q status w) := by
  have hfinish : ∀ (w₁ : FsWorld) (c : FsSeekCtx), KeepsImage ctx w w₁ → w₁.readCtx = w.readCtx →
      c.onComplete = (w.seekCtx q).onComplete → c.callerCtx = (w.seekCtx q).callerCtx →
      Passes ctx rest w L (access q :: fsSeekFinishEffects q) (fsSeekFinish q (w₁.setSeekCtx q c)) := by
    intro w₁ c hkeeps hread hcb hctx
    rw [fsSeekFinish]
    simp only [setSeekCtx_seekCtx]
    rw [hcb, hctx]
    refine ⟨hkeeps.trans ⟨rfl, rfl, rfl, rfl⟩, h.finish (t := .fsSeekStep) rfl ?_ ?_⟩
    · rcases h.works with ⟨hon, hwho⟩ | ⟨hon, hwho⟩
      · dsimp only at hon hwho
        rw [hon, hwho]
        rfl
      · dsimp only at hon hwho
        rw [hon, ← hread] at *
        exact hwho
    · rw [pendingBlocks]
      dsimp only
      rcases h.works with ⟨hon, -⟩ | ⟨hon, -⟩
      · dsimp only at hon
        rw [hon]
        rfl
      · dsimp only at hon
        rw [hon]
        rfl
  rw [fsSeekStep, fsSeekStepEffects]
  by_cases hstatus : status ≠ 0
  · rw [if_pos hstatus, if_pos hstatus]
    exact hfinish w _ .refl rfl rfl rfl
  rw [if_neg hstatus, if_neg hstatus]
  by_cases hend : EndOfChain (d.getNextCluster rx (w.seekCtx q).currentCluster)
  · rw [if_pos hend, if_pos hend]
    exact hfinish w _ .refl rfl rfl rfl
  rw [if_neg hend, if_neg hend]
  dsimp only
  by_cases hlast : (w.seekCtx q).clustersRemaining - 1 = 0
  · rw [if_pos hlast, if_pos hlast]
    exact hfinish _ _ ⟨rfl, rfl, rfl, rfl⟩ rfl rfl rfl
  · rw [if_neg hlast, if_neg hlast]
    refine ⟨⟨rfl, rfl, rfl, rfl⟩, (h.stay ?_ ?_).of_blocks rfl⟩
    · rw [WorksFor]
      simp only [setSeekCtx_seekCtx]
      exact h.works
    · rw [pendingBlocks, pendingBlocks]
      simp only [setSeekCtx_seekCtx]

/-! ### Reads -/

/-- **A read is started.** -/
theorem carries_readSubmit {file buffer : Ptr} {bytes : Word} (h : Carries ctx rest w (.elfStep, ctx) L)
    (hfree : ¬ L.Live (w.kmallocs 0) ∧ w.kmallocs 0 ≠ elfFile ctx) :
    Passes ctx rest w L (fsReadSubmitEffects w) (fsReadSubmit d file buffer bytes .elfStep ctx w) := by
  rw [fsReadSubmit_eq]
  refine ⟨⟨rfl, rfl, rfl, rfl⟩, h.start (t := .fsReadStep) hfree rfl ?_ rfl⟩
  rw [WorksFor]
  simp only [setReadCtx_readCtx, and_self]

/-- **The step of a read.** -/
theorem passes_readStep {r : Ptr} (h : Carries ctx rest w (.fsReadStep, r) L)
    (hfree : ¬ L.Live (w.kmallocs 0) ∧ w.kmallocs 0 ≠ elfFile ctx) :
    Passes ctx rest w L (fsReadStepEffects d r status w) (fsReadStep d rx r status w) := by
  obtain ⟨hcb, hctx⟩ := h.works
  dsimp only at hcb hctx
  have hfinish : ∀ (w₁ : FsWorld) (c : FsReadCtx), KeepsImage ctx w w₁ →
      c.callback = (w.readCtx r).callback → c.ctx = (w.readCtx r).ctx →
      Passes ctx rest w L (access r :: fsReadFinishEffects r) (fsReadFinish r (w₁.setReadCtx r c)) := by
    intro w₁ c hkeeps hcb' hctx'
    rw [fsReadFinish]
    simp only [setReadCtx_readCtx]
    rw [hcb', hctx', hcb, hctx]
    exact ⟨hkeeps.trans ⟨rfl, rfl, rfl, rfl⟩, h.finish (t := .fsReadStep) rfl rfl rfl⟩
  have hstay : ∀ (w₁ : FsWorld) (c : FsReadCtx), c.callback = (w.readCtx r).callback →
      c.ctx = (w.readCtx r).ctx → Carries ctx rest (w₁.setReadCtx r c) (.fsReadStep, r) L := by
    intro w₁ c hcb' hctx'
    refine h.stay ?_ rfl
    rw [WorksFor]
    simp only [setReadCtx_readCtx]
    exact ⟨hcb'.trans hcb, hctx'.trans hctx⟩
  rw [fsReadStep, fsReadStepEffects]
  by_cases hstatus : status ≠ 0
  · rw [if_pos hstatus, if_pos hstatus]
    exact hfinish w _ .refl rfl rfl
  rw [if_neg hstatus, if_neg hstatus]
  cases hstate : (w.readCtx r).state with
  | loadContents =>
    dsimp only
    rw [fsReadPostIo]
    have hcopy := hstay w { w.readCtx r with state := .copyContents } rfl rfl
    exact ⟨⟨rfl, rfl, rfl, rfl⟩, hcopy.of_blocks rfl⟩
  | copyContents =>
    dsimp only
    generalize (if 512 ≤ ((w.file (w.readCtx r).file).currentByte + (w.readCtx r).bytesRemaining : Word)
      then 512 - (w.file (w.readCtx r).file).currentByte else (w.readCtx r).bytesRemaining) = n
    by_cases hlast : (w.readCtx r).bytesRemaining - n = 0
    · rw [if_pos hlast, if_pos hlast]
      exact hfinish _ _ ⟨rfl, rfl, rfl, rfl⟩ rfl rfl
    · rw [if_neg hlast, if_neg hlast]
      -- the seek sees the world with the sector copied
      generalize hw' : FsWorld.setReadCtx _ r _ = w'
      have hcarries : Carries ctx rest w' (.fsReadStep, r) L := by
        rw [← hw']
        exact hstay _ _ rfl rfl
      have heff : fsSeekWhenceEffects d (w.readCtx r).file n (some .cur) w =
          fsSeekWhenceEffects d (w.readCtx r).file n (some .cur) w' := by
        rw [← hw']
        rfl
      have hm : w'.kmallocs = w.kmallocs := by rw [← hw']; rfl
      have hkeeps : KeepsImage ctx w w' := by
        rw [← hw']
        exact ⟨rfl, rfl, rfl, rfl⟩
      rw [heff]
      refine ⟨hkeeps.trans (keeps_seekWhence ..).1, ?_⟩
      refine carries_seekWhence (k := (.fsReadStep, r)) (Or.inr rfl) (hcarries.of_blocks ?_) ?_
      · rfl
      · rw [hm]
        exact hfree
  | seekRead | done | error => exact ⟨.refl, trivial⟩

/-! ### Opens -/

/-- The open's context may change in everything but whom it serves. -/
theorem worksFor_setOpenCtx {o : Ptr} {c : FsOpenCtx} {w₁ : FsWorld}
    (h : WorksFor ctx w (.fsOpenStep, o)) (hcb : c.onComplete = (w.openCtx o).onComplete)
    (hctx : c.callerCtx = (w.openCtx o).callerCtx) (hproc : c.procId = (w.openCtx o).procId) :
    WorksFor ctx (w₁.setOpenCtx o c) (.fsOpenStep, o) := by
  obtain ⟨hcb', hctx', hproc'⟩ := h
  rw [WorksFor]
  simp only [setOpenCtx_openCtx]
  exact ⟨hcb.trans hcb', hctx.trans hctx', hproc.trans hproc'⟩

/-- An open completes. -/
theorem passes_openFinish {o : Ptr} {w₁ : FsWorld} (h : Carries ctx rest w (.fsOpenStep, o) L)
    (hworks : WorksFor ctx w₁ (.fsOpenStep, o)) (hkeeps : KeepsImage ctx w w₁) :
    Passes ctx rest w L (access o :: fsOpenFinishEffects o w) (fsOpenFinish o w₁) := by
  obtain ⟨hcb, -, hproc⟩ := h.works
  obtain ⟨hcb', hctx', hproc'⟩ := hworks
  dsimp only at hcb hproc hcb' hctx' hproc'
  have heffects : access o :: fsOpenFinishEffects o w =
      [access o, access o, free o, access o, free o, complete (.fsOpenStep, o)] := by
    rw [fsOpenFinishEffects]
    simp [hproc, hcb]
  have hgone : ¬ (L.apply (.free o)).Live o := fun hlive => by
    obtain ⟨b, hmem, heq⟩ := List.mem_map.1 hlive
    exact (Ledger.mem_free.1 hmem).2 heq
  rw [heffects, fsOpenFinish]
  simp only [hproc', ne_eq, not_true_eq_false, if_false, hcb', hctx']
  -- the second release of the context is of what is gone
  exact ⟨hkeeps, h.finish (t := .fsOpenStep) (blocks_free_of_not_live hgone) rfl rfl⟩

/-- An open asks for another sector. -/
theorem passes_openPostIo {o : Ptr} {w₁ : FsWorld} {lba : Word} {next : FsOpenState}
    {es : List FsEffect} (h : Carries ctx rest w (.fsOpenStep, o) L)
    (hworks : WorksFor ctx w₁ (.fsOpenStep, o)) (htouches : Touches o es) (hkeeps : KeepsImage ctx w w₁) :
    Passes ctx rest w L es (fsOpenPostIo o lba next w₁) := by
  rw [fsOpenPostIo]
  refine ⟨hkeeps.trans ⟨rfl, rfl, rfl, rfl⟩, (h.stay ?_ ?_).of_blocks (blocks_of_touches htouches L)⟩
  · exact worksFor_setOpenCtx hworks rfl rfl rfl
  · rfl

/-- **The step of an open.** -/
theorem passes_openStep {o : Ptr} (h : Carries ctx rest w (.fsOpenStep, o) L) :
    Passes ctx rest w L (fsOpenStepEffects d rx o status w) (fsOpenStep d rx o status w) := by
  have hworks : ∀ {w₁ : FsWorld} {c : FsOpenCtx}, c.onComplete = (w.openCtx o).onComplete →
      c.callerCtx = (w.openCtx o).callerCtx → c.procId = (w.openCtx o).procId →
      WorksFor ctx (w₁.setOpenCtx o c) (.fsOpenStep, o) := fun hcb hctx hproc =>
    worksFor_setOpenCtx h.works hcb hctx hproc
  rw [fsOpenStep, fsOpenStepEffects]
  by_cases hstatus : status ≠ 0
  · rw [if_pos hstatus, if_pos hstatus]
    exact passes_openFinish h (hworks rfl rfl rfl) ⟨rfl, rfl, rfl, rfl⟩
  rw [if_neg hstatus, if_neg hstatus]
  cases hstate : (w.openCtx o).state with
  | parseDirSector =>
    dsimp only
    cases hscan : scanDir rx (w.openCtx o).walker.component83 entriesPerSector 0 with
    | endOfDir => exact passes_openFinish h (hworks rfl rfl rfl) ⟨rfl, rfl, rfl, rfl⟩
    | found e =>
      dsimp only
      by_cases hnext : (!pathWalkerHasNext (w.openCtx o).walker) = true
      · rw [if_pos hnext, if_pos hnext]
        exact passes_openFinish h (hworks rfl rfl rfl) ⟨rfl, rfl, rfl, rfl⟩
      · rw [if_neg hnext, if_neg hnext, storeParentCluster_eq]
        refine passes_openPostIo h ?_ touches_access ⟨rfl, rfl, rfl, rfl⟩
        exact @hworks w _ rfl rfl rfl
    | noMatch =>
      dsimp only
      split
      · exact passes_openPostIo h (hworks rfl rfl rfl) touches_access_fat ⟨rfl, rfl, rfl, rfl⟩
      · exact passes_openPostIo h (hworks rfl rfl rfl) touches_access ⟨rfl, rfl, rfl, rfl⟩
  | processFat =>
    dsimp only
    by_cases hend : EndOfChain (d.getNextCluster rx (w.openCtx o).currentCluster)
    · rw [if_pos hend, if_pos hend]
      exact passes_openFinish h (hworks rfl rfl rfl) ⟨rfl, rfl, rfl, rfl⟩
    · rw [if_neg hend, if_neg hend]
      exact passes_openPostIo h (hworks rfl rfl rfl) touches_access ⟨rfl, rfl, rfl, rfl⟩
  | done | notFound | error => exact ⟨.refl, trivial⟩

/-! ### The loader -/

/-- A header, or contents, are read. -/
theorem passes_elfRead {c : ElfCtx} {file buffer : Ptr} {bytes : Word}
    (h : Carries ctx rest w (.elfStep, ctx) L)
    (hfree : ¬ L.Live (w.kmallocs 0) ∧ w.kmallocs 0 ≠ elfFile ctx)
    (himage : c.tmpImage = (w.elfCtx ctx).tmpImage) (hpcb : c.pcb = (w.elfCtx ctx).pcb) :
    Passes ctx rest w L (access ctx :: fsReadSubmitEffects w)
      (fsReadSubmit d file buffer bytes .elfStep ctx (w.setElfCtx ctx c)) := by
  have hkeeps : KeepsImage ctx w (w.setElfCtx ctx c) := by
    refine ⟨?_, ?_, rfl, rfl⟩ <;> rw [setElfCtx_elfCtx] <;> assumption
  have hstart : Carries ctx rest (w.setElfCtx ctx c) (.elfStep, ctx) (applyHeap L (access ctx)) :=
    ⟨rfl, h.wellFormed, h.blocks, h.room⟩
  exact ⟨hkeeps.trans (carries_readSubmit hstart hfree).keeps, (carries_readSubmit hstart hfree).carries⟩

/-- A header, or contents, are sought. -/
theorem passes_elfSeek {c : ElfCtx} {file : Ptr} {off : Word} {whence : Option SeekWhence}
    (h : Carries ctx rest w (.elfStep, ctx) L)
    (hfree : ¬ L.Live (w.kmallocs 0) ∧ w.kmallocs 0 ≠ elfFile ctx)
    (himage : c.tmpImage = (w.elfCtx ctx).tmpImage) (hpcb : c.pcb = (w.elfCtx ctx).pcb) :
    Passes ctx rest w L (access ctx :: fsSeekWhenceEffects d file off whence w)
      (fsSeekWhence d file off whence .elfStep ctx (w.setElfCtx ctx c)) := by
  have hkeeps : KeepsImage ctx w (w.setElfCtx ctx c) := by
    refine ⟨?_, ?_, rfl, rfl⟩ <;> rw [setElfCtx_elfCtx] <;> assumption
  have hstart : Carries ctx rest (w.setElfCtx ctx c) (.elfStep, ctx) (applyHeap L (access ctx)) :=
    ⟨rfl, h.wellFormed, h.blocks, h.room⟩
  exact ⟨hkeeps.trans (keeps_seekWhence ..).1,
    carries_seekWhence (k := (.elfStep, ctx)) (Or.inl rfl) hstart hfree⟩

/-- On to the next header, or to the end. -/
theorem passes_nextHeader {c : ElfCtx} (h : Carries ctx rest w (.elfStep, ctx) L)
    (hfree : ¬ L.Live (w.kmallocs 0) ∧ w.kmallocs 0 ≠ elfFile ctx)
    (hseg : c.currentSeg = (w.elfCtx ctx).currentSeg)
    (himage : c.tmpImage = (w.elfCtx ctx).tmpImage) (hpcb : c.pcb = (w.elfCtx ctx).pcb) :
    Passes ctx rest w L (access ctx :: elfReadNextProgramHeaderEffects ctx w)
      (elfReadNextProgramHeader d ctx (w.setElfCtx ctx c)) := by
  have hkeeps : ∀ c' : ElfCtx, c'.tmpImage = c.tmpImage → c'.pcb = c.pcb →
      KeepsImage ctx w ((w.setElfCtx ctx c).setElfCtx ctx c') := fun c' himage' hpcb' =>
    ⟨by rw [setElfCtx_elfCtx, himage', himage], by rw [setElfCtx_elfCtx, hpcb', hpcb], rfl, rfl⟩
  have hstart : ∀ c' : ElfCtx, Carries ctx rest ((w.setElfCtx ctx c).setElfCtx ctx c')
      (.elfStep, ctx) (applyHeap (applyHeap L (access ctx)) (access ctx)) := fun _ =>
    ⟨rfl, h.wellFormed, h.blocks, h.room⟩
  rw [elfReadNextProgramHeader, elfReadNextProgramHeaderEffects]
  simp only [setElfCtx_elfCtx, hseg]
  have hmem : (w.setElfCtx ctx c).mem = w.mem := rfl
  rw [hmem]
  by_cases hmore : ((w.elfCtx ctx).currentSeg + 1).toInt <
      ((loadEhdr w.mem (elfHeader ctx)).ePhnum.toNat : Int)
  · rw [if_pos hmore, if_pos hmore]
    refine ⟨(hkeeps _ ?_ ?_).trans (carries_readSubmit (hstart _) hfree).keeps,
      (carries_readSubmit (hstart _) hfree).carries⟩
    · rfl
    · rfl
  · rw [if_neg hmore, if_neg hmore]
    -- what is closed is the file in the loader's context, which is not a block
    refine ⟨hkeeps _ rfl rfl, (hstart _).of_blocks ?_⟩
    exact blocks_free_of_not_live h.room

/-- **The step of the loader**, when it neither ends the load nor allocates a segment. -/
theorem passes_elfStep (h : Carries ctx rest w (.elfStep, ctx) L)
    (hfree : ¬ L.Live (w.kmallocs 0) ∧ w.kmallocs 0 ≠ elfFile ctx)
    (hfinish : elfFinishState ctx status w = none) (hno : ¬ CallsUalloc (.elfStep, ctx) status w) :
    Passes ctx rest w L (elfStepEffects d ctx status w) (elfStep d ctx status w) := by
  rw [elfFinishState] at hfinish
  by_cases hstatus : status ≠ 0
  · rw [if_pos hstatus] at hfinish
    cases hfinish
  rw [if_neg hstatus] at hfinish
  rw [elfStep, elfStepEffects, if_neg hstatus, if_neg hstatus]
  cases hstate : (w.elfCtx ctx).state with
  | opening => exact passes_elfRead h hfree rfl rfl
  | readingHeader =>
    simp only [if_neg (elfValidateHeader_ne_zero _)]
    exact passes_elfSeek h hfree rfl rfl
  | loadPheader => exact passes_elfRead h hfree rfl rfl
  | readPheader =>
    simp only [hstate] at hfinish
    dsimp only
    by_cases hload : (loadPhdr w.mem (elfPheader ctx)).pType ≠ ptLoad
    · rw [if_pos hload, if_pos hload]
      exact passes_nextHeader h hfree rfl rfl rfl
    · -- a segment without a record ends the load
      rw [elfPhdr, if_neg hload] at hfinish
      refine absurd ⟨rfl, not_not.1 hstatus, hstate, not_not.1 hload, fun hnull => ?_⟩ hno
      rw [if_pos (Or.inl hnull)] at hfinish
      cases hfinish
  | seekPcontent => exact passes_elfRead h hfree rfl rfl
  | loadPcontent => exact passes_nextHeader h hfree rfl rfl rfl
  | closing =>
    simp only [hstate] at hfinish
    cases hfinish
  | done | error => exact ⟨.refl, trivial⟩

/-- **The step that allocates a segment**: its record is a block more. -/
theorem carries_segment (h : Carries ctx rest w (.elfStep, ctx) L) (hs : Supplied ctx L w)
    (hcall : CallsUalloc (.elfStep, ctx) status w) (hmem : w.uallocs 0 ≠ null) :
    KeepsImage ctx (allocSegment ctx (elfPhdr w ctx) w) (elfStep d ctx status w).1 ∧
      CarriesOn ctx ((.region, w.kmallocRegions 0) :: rest) (elfStep d ctx status w).1
        ((elfStepEffects d ctx status w).foldl applyHeap L) (elfStep d ctx status w).2 := by
  obtain ⟨-, rfl, hstate, hload, hregion⟩ := hcall
  have hnot : ¬ (loadPhdr w.mem (elfPheader ctx)).pType ≠ ptLoad := not_not.2 hload
  have hstep : elfStep d ctx 0 w =
      fsSeekWhence d (elfFile ctx) (elfPhdr w ctx).pOffset (some .set) .elfStep ctx
        (allocSegment ctx (elfPhdr w ctx) w) := by
    rw [elfStep, if_neg (by decide)]
    simp only [hstate, if_neg hnot]
    rw [if_neg (show ¬ (w.setElfCtx ctx _).kmallocRegion.1 = null from hregion),
      if_neg (show ¬ (w.setElfCtx ctx _).kmallocRegion.2.ualloc.1 = null from hmem)]
    simp only [allocSegment, FsWorld.setElfCtx, FsWorld.kmallocRegion, FsWorld.ualloc,
      Function.update_idem, elfPhdr]
  have heffects : elfStepEffects d ctx 0 w =
      [access ctx, .heap (.alloc .region (w.kmallocRegions 0)), access ctx] ++
        fsSeekWhenceEffects d (elfFile ctx) (elfPhdr w ctx).pOffset (some .set)
          (allocSegment ctx (elfPhdr w ctx) w) := by
    rw [elfStepEffects, if_neg (by decide)]
    simp only [hstate, if_neg hnot]
    rw [if_neg (show ¬ w.kmallocRegion.1 = null from hregion),
      if_neg (show ¬ w.ualloc.1 = null from hmem)]
    rfl
  rw [hstep, heffects, List.foldl_append]
  refine ⟨(keeps_seekWhence ..).1, ?_⟩
  obtain ⟨hlive, hfile, hne⟩ := hs.region.resolve_left hregion
  refine carries_seekWhence (k := (.elfStep, ctx)) (Or.inl rfl) ⟨rfl, ?_, ?_, ?_⟩ ⟨?_, hs.context.2⟩
  · exact List.nodup_cons.2 ⟨hlive, h.wellFormed⟩
  · exact h.blocks.cons _
  · intro hl
    rcases List.mem_cons.1 hl with heq | hl
    · exact hfile heq.symm
    · exact h.room hl
  · intro hl
    rcases List.mem_cons.1 hl with heq | hl
    · exact hne heq.symm
    · exact hs.context.1 hl

/-! ### The end of a load -/

theorem elfFinish_stop : (elfFinish ctx w).2 = .stop := by
  rw [elfFinish]
  dsimp only
  split
  · rfl
  · rfl

/-- **Where `elf_finish` is run**, it is with the load as it was, but for its state. -/
theorem elfStep_of_finish {s : ElfState} (h : elfFinishState ctx status w = some s) :
    ∃ w₁, elfStep d ctx status w = elfFinish ctx w₁ ∧ (w₁.elfCtx ctx).state = s ∧
      KeepsImage ctx w w₁ ∧ w₁.tfA0 = w.tfA0 := by
  have hkeeps : ∀ {v : FsWorld} {c : ElfCtx}, c.tmpImage = (w.elfCtx ctx).tmpImage →
      c.pcb = (w.elfCtx ctx).pcb → v.region = w.region → v.pcb = w.pcb → v.tfA0 = w.tfA0 →
      KeepsImage ctx w (v.setElfCtx ctx c) ∧ (v.setElfCtx ctx c).tfA0 = w.tfA0 :=
    fun himage hpcb hregion hpcbs htf =>
      ⟨⟨by rw [setElfCtx_elfCtx, himage], by rw [setElfCtx_elfCtx, hpcb], hregion, hpcbs⟩, htf⟩
  rw [elfFinishState] at h
  rw [elfStep]
  by_cases hstatus : status ≠ 0
  · rw [if_pos hstatus] at h ⊢
    cases h
    exact ⟨_, rfl, by rw [setElfCtx_elfCtx], hkeeps rfl rfl rfl rfl rfl⟩
  rw [if_neg hstatus] at h ⊢
  cases hstate : (w.elfCtx ctx).state with
  | readingHeader =>
    simp only [hstate, if_neg (elfValidateHeader_ne_zero _)] at h
    cases h
  | readPheader =>
    simp only [hstate] at h
    dsimp only
    by_cases hload : (loadPhdr w.mem (elfPheader ctx)).pType ≠ ptLoad
    · rw [elfPhdr, if_pos hload] at h
      cases h
    rw [elfPhdr, if_neg hload, Option.ite_none_right_eq_some] at h
    obtain ⟨hnull, h⟩ := h
    cases h
    rw [if_neg hload]
    split
    · exact ⟨_, rfl, by rw [setElfCtx_elfCtx], hkeeps rfl rfl rfl rfl rfl⟩
    · rename_i hregion
      split
      · exact ⟨_, rfl, by rw [setElfCtx_elfCtx], hkeeps rfl rfl rfl rfl rfl⟩
      · rename_i hmem
        exact absurd (hnull.resolve_left hregion) hmem
  | closing =>
    simp only [hstate] at h
    cases h
    exact ⟨_, rfl, by rw [setElfCtx_elfCtx], hkeeps rfl rfl rfl rfl rfl⟩
  | opening | loadPheader | seekPcontent | loadPcontent | done | error =>
    simp only [hstate] at h
    cases h

/-- Some blocks are freed. -/
theorem perm_frees (bs l : List (BlockKind × Ptr)) {L : Ledger BlockKind Ptr} (h : L.WellFormed)
    (hperm : L.blocks.Perm (bs ++ l)) :
    ((bs.map fun b => free b.2).foldl applyHeap L).WellFormed ∧
      ((bs.map fun b => free b.2).foldl applyHeap L).blocks.Perm l := by
  induction bs generalizing L with
  | nil => exact ⟨h, hperm⟩
  | cons b bs ih => exact ih h.free (perm_free h hperm)

/-- **A load that fails** frees its context and the records of its image. -/
theorem perm_elfError {l : List (BlockKind × Ptr)} (h : L.WellFormed)
    (hperm : L.blocks.Perm ((.context .elfStep, ctx) ::
      ((w.elfCtx ctx).tmpImage.regions.map (Prod.mk BlockKind.region) ++ l)))
    (hstate : (w.elfCtx ctx).state = .error) :
    ((elfFinishEffects ctx w).foldl applyHeap L).blocks.Perm l := by
  have heffects : elfFinishEffects ctx w = access ctx ::
      (((w.elfCtx ctx).tmpImage.regions.map (Prod.mk BlockKind.region)).map fun b => free b.2) ++
        [access ctx, free ctx] := by
    rw [elfFinishEffects, if_pos hstate, ProcessImage.regions]
    by_cases htext : (w.elfCtx ctx).tmpImage.ptextMemoryRegion = null <;>
      by_cases hdata : (w.elfCtx ctx).tmpImage.pdataMemoryRegion = null <;> simp [htext, hdata]
  have hregions : L.blocks.Perm ((w.elfCtx ctx).tmpImage.regions.map (Prod.mk BlockKind.region) ++
      (.context .elfStep, ctx) :: l) := hperm.trans List.perm_middle.symm
  obtain ⟨hwf, hrest⟩ := perm_frees (L := applyHeap L (access ctx)) _ _ h hregions
  rw [heffects, List.foldl_append, List.foldl_cons]
  exact perm_free (b := (.context .elfStep, ctx)) hwf hrest

/-- So it does whatever it failed for. -/
theorem perm_elfStep_error {l : List (BlockKind × Ptr)} (h : L.WellFormed)
    (hperm : L.blocks.Perm ((.context .elfStep, ctx) ::
      ((w.elfCtx ctx).tmpImage.regions.map (Prod.mk BlockKind.region) ++ l)))
    (hs : Supplied ctx L w) (hfinish : elfFinishState ctx status w = some .error) :
    ((elfStepEffects d ctx status w).foldl applyHeap L).blocks.Perm l := by
  have hfailed : ∀ L' : Ledger BlockKind Ptr, L'.blocks = L.blocks →
      ((elfFinishEffects ctx (w.setElfCtx ctx { w.elfCtx ctx with state := .error })).foldl applyHeap
        L').blocks.Perm l := by
    intro L' hb
    refine perm_elfError ?_ ?_ ?_
    · rw [Ledger.WellFormed, hb]
      exact h
    · rw [setElfCtx_elfCtx, hb]
      exact hperm
    · rw [setElfCtx_elfCtx]
  rw [elfFinishState] at hfinish
  rw [elfStepEffects]
  by_cases hstatus : status ≠ 0
  · rw [if_pos hstatus]
    exact hfailed _ rfl
  rw [if_neg hstatus] at hfinish ⊢
  cases hstate : (w.elfCtx ctx).state with
  | readingHeader =>
    simp only [hstate, if_neg (elfValidateHeader_ne_zero _)] at hfinish
    cases hfinish
  | readPheader =>
    simp only [hstate] at hfinish
    dsimp only
    by_cases hload : (loadPhdr w.mem (elfPheader ctx)).pType ≠ ptLoad
    · rw [elfPhdr, if_pos hload] at hfinish
      cases hfinish
    rw [elfPhdr, if_neg hload, Option.ite_none_right_eq_some] at hfinish
    obtain ⟨hnull, -⟩ := hfinish
    rw [if_neg hload]
    split
    · exact hfailed _ rfl
    · -- the record of the segment that failed is freed first
      rename_i hregion
      rw [if_pos (show w.ualloc.1 = null from hnull.resolve_left hregion)]
      exact hfailed _ (blocks_alloc_free (hs.region.resolve_left hregion).1)
  | closing =>
    simp only [hstate] at hfinish
    cases hfinish
  | opening | loadPheader | seekPcontent | loadPcontent | done | error =>
    simp only [hstate] at hfinish
    cases hfinish

/-! ## The invariant -/

variable {c c' : LoadBooks}

/-- The callback, in the world it sees. -/
theorem LoadSys.run_code (d : FatDriver) (k : FsClosure) (status : Int) (c : LoadSys) :
    (c.run d k status).world = (fsCode d c.rx k status (c.stocked k status)).1 ∧
      (c.run d k status).action = (fsCode d c.rx k status (c.stocked k status)).2 := by
  rw [LoadSys.run, LoadSys.stocked]
  dsimp only
  split
  · exact ⟨rfl, rfl⟩
  · exact ⟨rfl, rfl⟩

/-- The books do not come into it. -/
theorem LoadBooks.run_code (d : FatDriver) (k : FsClosure) (status : Int) (c : LoadBooks) :
    (c.run d k status).world = (fsCode d c.rx k status (c.stocked k status)).1 ∧
      (c.run d k status).action = (fsCode d c.rx k status (c.stocked k status)).2 :=
  LoadSys.run_code d k status c.toLoadSys

/-- The bitmap after the callback, but for what it clears. -/
theorem LoadSys.run_allocBitmap (d : FatDriver) (k : FsClosure) (status : Int) (c : LoadSys) :
    (c.run d k status).allocBitmap = if CallsUalloc k status c.world then
        (ualloc (elfPhdr c.world k.2).pMemsz c.allocBitmap).2
      else c.allocBitmap := by
  rw [LoadSys.run]
  split
  · rfl
  · rfl

/-- The callback that ends a load is its loader's. -/
theorem LoadBooks.loader_of_finishes {s : ElfState} (hworks : WorksFor ctx c.world k)
    (h : c.finishState k status = some s) :
    k = (.elfStep, ctx) ∧ elfFinishState ctx status (c.stocked (.elfStep, ctx) status) = some s := by
  obtain ⟨cb, p⟩ := k
  rw [LoadBooks.finishState, Option.ite_none_right_eq_some] at h
  obtain ⟨rfl, hends⟩ := h
  obtain rfl : p = ctx := hworks
  exact ⟨rfl, hends⟩

/-- A segment for which there is no memory ends the load. -/
theorem LoadBooks.finishState_of_calls (hcall : CallsUalloc (.elfStep, ctx) status c.world) :
    c.finishState (.elfStep, ctx) status =
      if (ualloc (elfPhdr c.world ctx).pMemsz c.allocBitmap).1 = null then some .error else none := by
  have hstocked : c.stocked (.elfStep, ctx) status = { c.world with
      uallocs := fun _ => (ualloc (elfPhdr c.world ctx).pMemsz c.allocBitmap).1 } := if_pos hcall
  obtain ⟨-, hstatus, hread, hload, hregion⟩ := hcall
  dsimp only at hread hload
  have hnot : ¬ (elfPhdr (c.stocked (.elfStep, ctx) status) ctx).pType ≠ ptLoad := by
    rw [hstocked]
    exact not_not.2 hload
  rw [LoadBooks.finishState, if_pos rfl, elfFinishState, if_neg (not_not.2 hstatus), if_neg hnot,
    hstocked]
  simp only [hread, hregion, false_or]

/-- The world that a callback sees differs in what `ualloc` will hand out only. -/
theorem LoadSys.keeps_stocked (k : FsClosure) (status : Int) (c : LoadSys) :
    KeepsImage ctx c.world (c.stocked k status) := by
  rw [LoadSys.stocked]
  split
  · exact ⟨rfl, rfl, rfl, rfl⟩
  · exact .refl

theorem Carries.stocked {s : LoadSys} {j : FsClosure} (h : Carries ctx rest s.world j L) :
    Carries ctx rest (s.stocked k status) j L := by
  rw [LoadSys.stocked]
  split
  · exact ⟨h.works, h.wellFormed, h.blocks, h.room⟩
  · exact h

theorem Supplied.stocked {s : LoadSys} (h : Supplied ctx L s.world) :
    Supplied ctx L (s.stocked k status) := by
  rw [LoadSys.stocked]
  split
  · exact ⟨h.context, h.region⟩
  · exact h

/-- The bits of a region depend on its place and its size only. -/
theorem regionBits_congr {r r' : MemoryRegion} (hbase : r'.physicalBase = r.physicalBase)
    (hsize : r'.regionSize = r.regionSize) : regionBits r' = regionBits r := by
  rw [regionBits, regionBits, hbase, hsize]

theorem FromUalloc.congr {r r' : MemoryRegion} (h : FromUalloc r)
    (hbase : r'.physicalBase = r.physicalBase) (hsize : r'.regionSize = r.regionSize) :
    FromUalloc r' := by
  rwa [FromUalloc, hbase, hsize]

theorem recordBits_congr {ps : List Ptr} (h : ∀ p ∈ ps, w'.region p = w.region p) :
    recordBits w' ps = recordBits w ps :=
  Set.iUnion₂_congr fun p hp => by rw [h p hp]

theorem recordBits_perm {ps qs : List Ptr} (h : ps.Perm qs) : recordBits w ps = recordBits w qs := by
  ext b
  simp only [recordBits, Set.mem_iUnion, h.mem_iff]

theorem recordBits_cons (w : FsWorld) (p : Ptr) (ps : List Ptr) :
    recordBits w (p :: ps) = regionBits (w.region p) ∪ recordBits w ps := by
  simp [recordBits]

theorem recordBits_append (w : FsWorld) (ps qs : List Ptr) :
    recordBits w (ps ++ qs) = recordBits w ps ∪ recordBits w qs := by
  ext b
  simp only [recordBits, Set.mem_iUnion, Set.mem_union, List.mem_append, exists_prop, or_and_right,
    exists_or]

/-- **The books stay right** when the load's regions stay, and what is in use besides them is what
others have. -/
theorem Accounts.congr (h : Accounts ctx c) (hregions : c'.regions ctx = c.regions ctx)
    (hregion : ∀ p ∈ c.regions ctx, c'.world.region p = c.world.region p)
    (hbits : usedBits c'.allocBitmap \ c'.elsewhere.bits =
      usedBits c.allocBitmap \ c.elsewhere.bits)
    (hused : c'.elsewhere.bits ⊆ usedBits c'.allocBitmap)
    (hheld : Held c'.world (c'.world.elfCtx ctx).pcb c'.elsewhere) : Accounts ctx c' := by
  have hown : recordBits c'.world (c'.regions ctx) =
      usedBits c'.allocBitmap \ c'.elsewhere.bits := by
    rw [hbits, h.bits, Set.union_sdiff_right, sdiff_eq_left.2 h.apart, hregions,
      recordBits_congr hregion]
  refine ⟨?_, ?_, ?_, fun p hp => ?_, hheld⟩
  · rw [hown, Set.sdiff_union_of_subset hused]
  · rw [hown]
    exact Set.disjoint_sdiff_left
  · rw [hregions]
    refine h.pairwise.imp_of_mem fun {p q} hp hq hd => ?_
    rwa [hregion p hp, hregion q hq]
  · rw [hregions] at hp
    rw [hregion p hp]
    exact h.made p hp

/-- The rest of the heap depends on the load's regions, and on others. -/
theorem LoadBooks.rest_congr (hregions : c'.regions ctx = c.regions ctx)
    (helsewhere : c'.elsewhere = c.elsewhere) : c'.rest ctx = c.rest ctx := by
  rw [LoadBooks.rest, LoadBooks.rest, hregions, helsewhere]

/-- What is in the load's books is in use. -/
theorem Carries.live_of_mem {b : BlockKind × Ptr} (h : Carries ctx rest w k L) (hb : b ∈ rest) :
    L.Live b.2 :=
  Ledger.live_of_mem (h.blocks.mem_iff.2 (List.mem_append_right _ hb))

/-- A segment's record comes to the load's regions. -/
theorem perm_imageSegment {image : ProcessImage} {hdr : ElfEhdr} {ph : ElfPhdr} {region : Ptr}
    {ps : List Ptr} (hregion : region ≠ null) :
    ((imageSegment image hdr ph region).regions ++ (ps ++
      [if ph.pFlags &&& pfX ≠ 0 then image.ptextMemoryRegion
        else image.pdataMemoryRegion].filter (· ≠ null))).Perm
      (region :: (image.regions ++ ps)) := by
  have hsplit : ∀ a b : Ptr, [a, b].filter (· ≠ null) =
      [a].filter (· ≠ null) ++ [b].filter (· ≠ null) := fun a b => List.filter_append [a] [b]
  have hone : [region].filter (· ≠ null) = [region] := by simp [hregion]
  rw [imageSegment, ProcessImage.regions, ProcessImage.regions]
  by_cases hflags : ph.pFlags &&& pfX ≠ 0
  · rw [if_pos hflags, if_pos hflags, hsplit, hsplit, hone, List.perm_iff_count]
    intro a
    simp only [List.count_append, List.count_cons, List.count_nil]
    omega
  · rw [if_neg hflags, if_neg hflags, hsplit, hsplit, hone, List.perm_iff_count]
    intro a
    simp only [List.count_append, List.count_cons, List.count_nil]
    omega

theorem CarriesOn.perm_rest {rest' : List (BlockKind × Ptr)} {a : FsAction}
    (h : CarriesOn ctx rest w L a) (hperm : rest.Perm rest') : CarriesOn ctx rest' w L a := by
  cases a with
  | post b k => exact ⟨h.works, h.wellFormed, h.blocks.trans (hperm.append_left _), h.room⟩
  | call k st => exact ⟨h.works, h.wellFormed, h.blocks.trans (hperm.append_left _), h.room⟩
  | stop => trivial

theorem KeepsImage.held {e : Elsewhere} (h : KeepsImage ctx w w') (hheld : Held w (w.elfCtx ctx).pcb e) :
    Held w' (w'.elfCtx ctx).pcb e := by
  rwa [h.target, Held, h.pcb, h.region]

/-- A callback that neither ends the load nor allocates a segment. -/
theorem passes_fsCode (hc : Carries ctx rest w k L)
    (hfree : ¬ L.Live (w.kmallocs 0) ∧ w.kmallocs 0 ≠ elfFile ctx)
    (hfinish : k.1 = .elfStep → elfFinishState ctx status w = none)
    (hno : ¬ CallsUalloc k status w) :
    Passes ctx rest w L (fsCodeEffects d rx k status w) (fsCode d rx k status w) := by
  obtain ⟨cb, p⟩ := k
  cases cb with
  | fsOpenStep => exact passes_openStep hc
  | fsReadStep => exact passes_readStep hc hfree
  | fsSeekStep => exact passes_seekStep hc
  | elfStep =>
    obtain rfl : p = ctx := hc.works
    exact passes_elfStep hc hfree (hfinish rfl) hno
  | client => exact hc.works.elim

/-- It leaves the books as they are. -/
theorem LoadBooks.Inv.pass (h : Accounts ctx c) (hc : Carries ctx (c.rest ctx) c.world k c.heap)
    (hs : Supplied ctx c.heap c.world) (hfinish : c.finishState k status = none)
    (hno : ¬ CallsUalloc k status c.world) : (c.run d k status).Inv ctx := by
  have hstocked : c.stocked k status = c.world := if_neg hno
  have helf : k.1 = .elfStep → elfFinishState ctx status c.world = none := by
    intro hk
    rw [LoadBooks.finishState, if_pos hk, hstocked] at hfinish
    have hctx : k.2 = ctx := by
      have hworks := hc.works
      rwa [WorksFor, hk] at hworks
    rwa [hctx] at hfinish
  have hpass := @passes_fsCode d ctx c.world k status c.rx _ _ hc hs.context helf hno
  obtain ⟨hworld, haction⟩ := LoadBooks.run_code d k status c
  rw [hstocked] at hworld haction
  have hkeeps := hpass.keeps
  rw [← hworld] at hkeeps
  have hbitmap : (c.run d k status).allocBitmap = c.allocBitmap := by
    rw [LoadBooks.run]
    dsimp only
    rw [hfinish, if_neg nofun, LoadSys.run_allocBitmap, if_neg hno]
  have hregions : (c.run d k status).regions ctx = c.regions ctx := by
    have hreplaced : (c.run d k status).replaced = c.replaced := if_neg fun hc => hno hc.1
    rw [LoadBooks.regions, LoadBooks.regions, hkeeps.image, hreplaced]
  have hheap : (c.run d k status).heap = (fsCodeEffects d c.rx k status c.world).foldl applyHeap c.heap := by
    rw [LoadBooks.run, hstocked]
  intro _
  refine ⟨h.congr hregions (fun p _ => congrFun hkeeps.region p) (by rw [hbitmap]; rfl) ?_
    (hkeeps.held h.held), ?_⟩
  · rw [hbitmap]
    change c.elsewhere.bits ⊆ _
    rw [h.bits]
    exact Set.subset_union_right
  · rw [LoadBooks.rest_congr hregions rfl, hworld, haction, hheap]
    exact hpass.carries

/-- One more region, of bits that were clear. -/
theorem Accounts.cons {p : Ptr} (h : Accounts ctx c) (hperm : (c'.regions ctx).Perm (p :: c.regions ctx))
    (helsewhere : c'.elsewhere = c.elsewhere)
    (hused : usedBits c'.allocBitmap = regionBits (c'.world.region p) ∪ usedBits c.allocBitmap)
    (hapart : Disjoint (regionBits (c'.world.region p)) (usedBits c.allocBitmap))
    (hmade : FromUalloc (c'.world.region p))
    (hown : ∀ q ∈ c.regions ctx, c'.world.region q = c.world.region q)
    (hheld : Held c'.world (c'.world.elfCtx ctx).pcb c'.elsewhere) : Accounts ctx c' := by
  have hrecords : recordBits c'.world (c'.regions ctx) =
      regionBits (c'.world.region p) ∪ recordBits c.world (c.regions ctx) := by
    rw [recordBits_perm hperm, recordBits_cons, recordBits_congr hown]
  rw [h.bits] at hused hapart
  rw [Set.disjoint_union_right] at hapart
  obtain ⟨hapart, helse⟩ := hapart
  refine ⟨?_, ?_, ?_, ?_, hheld⟩
  · rw [hrecords, hused, helsewhere, Set.union_assoc]
  · rw [hrecords, helsewhere]
    exact Set.disjoint_union_left.2 ⟨helse, h.apart⟩
  · refine (hperm.pairwise_iff fun hd => hd.symm).2 (List.pairwise_cons.2 ⟨fun q hq => ?_, ?_⟩)
    · rw [hown q hq]
      exact hapart.mono_right (Set.subset_biUnion_of_mem (u := fun q => regionBits (c.world.region q)) hq)
    · refine h.pairwise.imp_of_mem fun {p q} hp hq hd => ?_
      rwa [hown p hp, hown q hq]
  · intro q hq
    rcases List.mem_cons.1 (hperm.mem_iff.1 hq) with rfl | hq
    · exact hmade
    · rw [hown q hq]
      exact h.made q hq

/-- **A segment is allocated**: its bits and its record come to the load's. -/
theorem LoadBooks.Inv.segment (h : Accounts ctx c)
    (hc : Carries ctx (c.rest ctx) c.world (.elfStep, ctx) c.heap) (hs : Supplied ctx c.heap c.world)
    (hfinish : c.finishState (.elfStep, ctx) status = none)
    (hcall : CallsUalloc (.elfStep, ctx) status c.world) :
    (c.run d (.elfStep, ctx) status).Inv ctx := by
  have hstocked : c.stocked (.elfStep, ctx) status = { c.world with
      uallocs := fun _ => (ualloc (elfPhdr c.world ctx).pMemsz c.allocBitmap).1 } := if_pos hcall
  have hcall' : CallsUalloc (.elfStep, ctx) status (c.stocked (.elfStep, ctx) status) := by
    rw [hstocked]
    exact hcall
  have hmem : (c.stocked (.elfStep, ctx) status).uallocs 0 ≠ null := by
    rw [hstocked]
    intro hnull
    rw [LoadBooks.finishState_of_calls hcall, if_pos hnull] at hfinish
    cases hfinish
  have hlive : ¬ c.heap.Live (c.world.kmallocRegions 0) :=
    (hs.region.resolve_left hcall.2.2.2.2).1
  obtain ⟨hkeeps, hcarries⟩ := @carries_segment d ctx _ status _ _ hc.stocked hs.stocked hcall' hmem
  obtain ⟨hworld, haction⟩ := LoadBooks.run_code d (.elfStep, ctx) status c
  change (c.run d (.elfStep, ctx) status).world = (elfStep d ctx status _).1 at hworld
  change (c.run d (.elfStep, ctx) status).action = (elfStep d ctx status _).2 at haction
  have hheap : (c.run d (.elfStep, ctx) status).heap = (elfStepEffects d ctx status
      (c.stocked (.elfStep, ctx) status)).foldl applyHeap c.heap := rfl
  have helsewhere : (c.run d (.elfStep, ctx) status).elsewhere = c.elsewhere := rfl
  have hreplaced : (c.run d (.elfStep, ctx) status).replaced =
      c.replaced ++ replacedRegion ctx c.world := if_pos ⟨hcall, hmem⟩
  have hbitmap : (c.run d (.elfStep, ctx) status).allocBitmap =
      (ualloc (elfPhdr c.world ctx).pMemsz c.allocBitmap).2 := by
    rw [LoadBooks.run]
    dsimp only
    rw [hfinish, if_neg nofun, LoadSys.run_allocBitmap, if_pos hcall]
  rw [← hworld] at hkeeps hcarries
  rw [← haction, ← hheap] at hcarries
  rw [hstocked] at hkeeps hcarries hmem
  generalize c.run d (.elfStep, ctx) status = c' at hkeeps hcarries hreplaced hbitmap helsewhere ⊢
  obtain ⟨-, hmade, hused, hapart⟩ :=
    (ualloc_region c.allocBitmap (elfPhdr c.world ctx).pMemsz).resolve_left fun hn => hmem hn.1
  generalize hr : (⟨(ualloc (elfPhdr c.world ctx).pMemsz c.allocBitmap).1,
    (elfPhdr c.world ctx).pMemsz, 1⟩ : MemoryRegion) = r at hmade hused hapart
  -- the records
  have hregion : c'.world.region = Function.update c.world.region (c.world.kmallocRegions 0) r := by
    rw [hkeeps.region, ← hr]
    rfl
  have hnew : c'.world.region (c.world.kmallocRegions 0) = r := by
    rw [hregion, Function.update_self]
  have hold : ∀ b ∈ c.rest ctx, c'.world.region b.2 = c.world.region b.2 := by
    intro b hb
    rw [hregion, Function.update_of_ne]
    rintro heq
    exact hlive (heq ▸ hc.live_of_mem hb)
  have hperm : (c'.regions ctx).Perm (c.world.kmallocRegions 0 :: c.regions ctx) := by
    have himage : (c'.world.elfCtx ctx).tmpImage = imageSegment (c.world.elfCtx ctx).tmpImage
        (loadEhdr c.world.mem (elfHeader ctx)) (elfPhdr c.world ctx) (c.world.kmallocRegions 0) := by
      rw [hkeeps.image, allocSegment, setElfCtx_elfCtx]
      rfl
    rw [LoadBooks.regions, LoadBooks.regions, himage, hreplaced, replacedRegion]
    exact perm_imageSegment hcall.2.2.2.2
  have hheld : Held c'.world (c'.world.elfCtx ctx).pcb c'.elsewhere := by
    intro p hp hne
    have htarget : (c'.world.elfCtx ctx).pcb = (c.world.elfCtx ctx).pcb := by
      rw [hkeeps.target, allocSegment, setElfCtx_elfCtx]
    have hpcb : c'.world.pcb = c.world.pcb := hkeeps.pcb
    rw [htarget, hpcb] at hp
    obtain ⟨hblock, hfrom, hsub⟩ := h.held p hp hne
    have hsame : c'.world.region p = c.world.region p :=
      hold (.region, p) (List.mem_cons_of_mem _ (List.mem_append_right _ hblock))
    rw [hsame, helsewhere]
    exact ⟨hblock, hfrom, hsub⟩
  refine fun _ => ⟨h.cons hperm helsewhere ?_ ?_ ?_ (fun p hp => ?_) hheld, hcarries.perm_rest ?_⟩
  · rw [hbitmap, hused, hnew]
  · rwa [hnew]
  · rwa [hnew]
  · exact hold (.region, p) (List.mem_cons_of_mem _ (List.mem_append_left _ (List.mem_map_of_mem hp)))
  · rw [LoadBooks.rest, LoadBooks.rest, helsewhere]
    refine (List.Perm.swap _ _ _).trans ((List.Perm.cons _ ?_))
    exact ((hperm.map (Prod.mk BlockKind.region)).append_right _).symm

/-- The record that a callback may come by is that of no region in use. -/
theorem LoadBooks.ne_fresh_region (hc : Carries ctx (c.rest ctx) c.world k c.heap)
    (hs : Supplied ctx c.heap c.world) (hrecord : (c.stocked k status).kmallocRegions 0 ≠ null)
    {p : Ptr} (hp : (.region, p) ∈ c.rest ctx) : p ≠ (c.stocked k status).kmallocRegions 0 := by
  rintro rfl
  exact (hs.stocked.region.resolve_left hrecord).1 (hc.live_of_mem hp)

/-- **Every callback keeps the invariant.** -/
theorem LoadBooks.Inv.run (h : Accounts ctx c) (hc : Carries ctx (c.rest ctx) c.world k c.heap)
    (hs : Supplied ctx c.heap c.world) : (c.run d k status).Inv ctx := by
  cases hfinish : c.finishState k status with
  | some s =>
    obtain ⟨rfl, hends⟩ := LoadBooks.loader_of_finishes hc.works hfinish
    obtain ⟨w₁, heq, -, -, -⟩ := elfStep_of_finish (d := d) hends
    refine fun hne => absurd ?_ hne
    rw [(LoadBooks.run_code d _ status c).2, fsCode]
    dsimp only
    rw [heq, elfFinish_stop]
  | none =>
    by_cases hcall : CallsUalloc k status c.world
    · obtain ⟨cb, p⟩ := k
      obtain rfl : cb = .elfStep := hcall.1
      obtain rfl : p = ctx := hc.works
      exact LoadBooks.Inv.segment h hc hs hfinish hcall
    · exact LoadBooks.Inv.pass h hc hs hfinish hcall

/-- An open is submitted for the loader. -/
theorem worksFor_openSubmit {path : List Byte} {outFile storage : Ptr} :
    let r := fsOpenSubmitWithDirParent d path outFile 0 (some .elfStep) ctx storage w
    (∃ lba, r.2 = .post lba (.fsOpenStep, w.kmallocs 0)) ∧
      WorksFor ctx r.1 (.fsOpenStep, w.kmallocs 0) ∧ KeepsImage ctx w r.1 := by
  dsimp only
  rw [fsOpenSubmitWithDirParent]
  simp only [setInitialDir, setOpenCtx_openCtx, setOpenCtx_setOpenCtx, storeParentCluster_setOpenCtx]
  rw [storeParentCluster_eq]
  refine ⟨⟨_, rfl⟩, ?_, ⟨rfl, rfl, rfl, rfl⟩⟩
  rw [WorksFor, fsOpenPostIo]
  simp only [FsWorld.kmalloc, setOpenCtx_openCtx, and_self]

theorem elfFile_ne (p : Ptr) : elfFile p ≠ p := by
  rw [elfFile]
  bv_omega

/-- The load is submitted. -/
theorem LoadBooks.submit_inv {path : List Byte} {pcb : Ptr} (hctx : w.kmallocs 0 = ctx)
    (hL : L.WellFormed) (hfree : ¬ L.Live ctx ∧ ¬ L.Live (elfFile ctx))
    (hnext : ¬ L.Live (w.kmallocs 1) ∧ w.kmallocs 1 ≠ ctx ∧ w.kmallocs 1 ≠ elfFile ctx)
    (hheld : Held w pcb ⟨usedBits m, L.blocks⟩) :
    (LoadBooks.submit d path pcb rx w m L).Inv ctx := by
  subst hctx
  -- the world in which the file is opened
  generalize hw : ((({ w.kmalloc.2 with
    mem := memset (elfHeader w.kmalloc.1) 0 (ehdrSize + phdrSize) w.kmalloc.2.mem
    cell := Function.update w.kmalloc.2.cell (elfParentDirCluster w.kmalloc.1) 0 } : FsWorld).setFile
      (elfFile w.kmalloc.1) ⟨0, 0, 0, 0, 0, 0, 0⟩).setElfCtx w.kmalloc.1
        ⟨.opening, 0, ⟨null, null, 0, 0, 0⟩, pcb, null, []⟩) = w'
  have hsubmit : elfLoadSubmit d path pcb w = fsOpenSubmitWithDirParent d path (elfFile w.kmalloc.1) 0
      (some .elfStep) w.kmalloc.1 (elfParentDirCluster w.kmalloc.1) w' := by
    rw [← hw]
    rfl
  obtain ⟨⟨lba, hact⟩, hworks, hkeeps⟩ := @worksFor_openSubmit d w.kmalloc.1 w' path
    (elfFile w.kmalloc.1) (elfParentDirCluster w.kmalloc.1)
  rw [← hsubmit] at hact hworks hkeeps
  have hm : w'.kmallocs 0 = w.kmallocs 1 := by
    rw [← hw]
    rfl
  have helf : w'.elfCtx w.kmalloc.1 = ⟨.opening, 0, ⟨null, null, 0, 0, 0⟩, pcb, null, []⟩ := by
    rw [← hw, setElfCtx_elfCtx]
  rw [hm] at hact hworks
  have hregions : (LoadBooks.submit d path pcb rx w m L).regions (w.kmallocs 0) = [] := by
    change (((elfLoadSubmit d path pcb w).1.elfCtx w.kmalloc.1).tmpImage).regions ++ [] = []
    rw [hkeeps.image, helf]
    rfl
  have hnone : recordBits (LoadBooks.submit d path pcb rx w m L).world [] = ∅ := by
    simp [recordBits]
  refine fun _ => ⟨⟨?_, ?_, ?_, ?_, ?_⟩, ?_⟩
  · rw [hregions, hnone, Set.empty_union]
    rfl
  · rw [hregions, hnone]
    exact Set.empty_disjoint _
  · rw [hregions]
    exact List.Pairwise.nil
  · rw [hregions]
    exact fun p hp => absurd hp List.not_mem_nil
  · refine hkeeps.held (e := ⟨usedBits m, L.blocks⟩) ?_
    rw [helf, ← hw]
    exact hheld
  · rw [LoadBooks.rest, hregions]
    change CarriesOn _ _ (elfLoadSubmit d path pcb w).1 _ (elfLoadSubmit d path pcb w).2
    rw [hact]
    refine ⟨hworks, ?_, .refl _, ?_⟩
    · refine List.nodup_cons.2 ⟨fun hl => ?_, List.nodup_cons.2 ⟨hfree.1, hL⟩⟩
      rcases List.mem_cons.1 hl with heq | hl
      · exact hnext.2.1 heq
      · exact hnext.1 hl
    · intro hl
      rcases List.mem_cons.1 hl with heq | hl
      · exact hnext.2.2 heq.symm
      rcases List.mem_cons.1 hl with heq | hl
      · exact elfFile_ne _ heq
      · exact hfree.2 hl

/-- **The invariant depends on nothing that others change.** -/
theorem LoadBooks.Inv.others {b : Word} {e : Elsewhere} (h : c.Inv ctx) (hpost : c.action = .post b k)
    (hw : LeftAlone ctx k c.world w) (ho : Others ctx c w m L e) :
    LoadBooks.Inv ctx { c with world := w, allocBitmap := m, heap := L, elsewhere := e } := by
  obtain ⟨haccounts, hcarries⟩ := h (by rw [hpost]; nofun)
  rw [hpost] at hcarries
  have helf : w.elfCtx ctx = c.world.elfCtx ctx := hw.loader
  have hregions : LoadBooks.regions ctx { c with
      world := w, allocBitmap := m, heap := L, elsewhere := e } = c.regions ctx := by
    rw [LoadBooks.regions, LoadBooks.regions, helf]
  have hblocks : ∀ l, c.heap.blocks.Perm (l ++ c.elsewhere.blocks) → L.blocks.Perm (l ++ e.blocks) :=
    ho.blocks
  have hpending : pendingBlocks w k = pendingBlocks c.world k ∧ WorksFor ctx w k := by
    obtain ⟨cb, p⟩ := k
    cases cb with
    | fsOpenStep =>
      have hsame : w.openCtx p = c.world.openCtx p := hw.pending
      refine ⟨rfl, ?_⟩
      rw [WorksFor, hsame]
      exact hcarries.works
    | fsReadStep =>
      have hsame : w.readCtx p = c.world.readCtx p := hw.pending
      refine ⟨rfl, ?_⟩
      rw [WorksFor, hsame]
      exact hcarries.works
    | fsSeekStep =>
      have hsame : w.seekCtx p = c.world.seekCtx p := hw.pending
      have hwaiting := hw.waiting _ rfl
      refine ⟨by rw [pendingBlocks, pendingBlocks, hsame], ?_⟩
      rw [WorksFor, hsame]
      rcases hcarries.works with hworks | ⟨hon, hworks⟩
      · exact Or.inl hworks
      · refine Or.inr ⟨hon, ?_⟩
        dsimp only at hon
        rw [hon] at hwaiting
        have hread : w.readCtx (c.world.seekCtx p).callerCtx =
            c.world.readCtx (c.world.seekCtx p).callerCtx := hwaiting
        rw [hread]
        exact hworks
    | elfStep => exact ⟨rfl, hcarries.works⟩
    | client => exact hcarries.works.elim
  refine fun _ => ⟨haccounts.congr hregions ho.regions ho.bits ho.used ho.held, ?_⟩
  rw [LoadBooks.rest, hregions]
  dsimp only
  rw [hpost]
  refine ⟨hpending.2, ho.wellFormed, ?_, ho.room⟩
  have hbefore := hcarries.blocks
  rw [LoadBooks.rest] at hbefore
  rw [hpending.1]
  have hafter := hblocks (pendingBlocks c.world k ++ (.context .elfStep, ctx) ::
    (c.regions ctx).map (Prod.mk BlockKind.region)) (by simpa using hbefore)
  simpa using hafter

/-- **Every state of a load** satisfies the invariant. -/
theorem BooksReach.inv (h : BooksReach d ctx c) : c.Inv ctx := by
  induction h with
  | submit hctx hL hfree hnext hheld => exact LoadBooks.submit_inv hctx hL hfree hnext hheld
  | others _ hpost hw ho ih => exact ih.others hpost hw ho
  | @complete c b k rx status _ hpost ih =>
    obtain ⟨haccounts, hcarries⟩ := ih (by rw [hpost]; nofun)
    rw [hpost] at hcarries
    exact fun _ => ⟨⟨haccounts.bits, haccounts.apart, haccounts.pairwise, haccounts.made,
      haccounts.held⟩, hcarries⟩
  | run _ hcall hs ih =>
    obtain ⟨haccounts, hcarries⟩ := ih (by rw [hcall]; nofun)
    rw [hcall] at hcarries
    exact LoadBooks.Inv.run haccounts hcarries hs

/-! ## What is left -/

/-- **A load that fails** allocates nothing in its last step, and frees all but the records that others
have taken the place of. -/
theorem LoadBooks.run_error (hc : Carries ctx (c.rest ctx) c.world (.elfStep, ctx) c.heap)
    (hs : Supplied ctx c.heap c.world) (hfinish : c.finishState (.elfStep, ctx) status = some .error) :
    usedBits (c.run d (.elfStep, ctx) status).allocBitmap = usedBits c.allocBitmap ∧
      (c.run d (.elfStep, ctx) status).heap.blocks.Perm
        (c.replaced.map (Prod.mk BlockKind.region) ++ c.elsewhere.blocks) := by
  have hstate : elfFinishState ctx status (c.stocked (.elfStep, ctx) status) = some .error := by
    rwa [LoadBooks.finishState, if_pos rfl] at hfinish
  constructor
  · rw [LoadBooks.run]
    dsimp only
    rw [hfinish, if_neg nofun, LoadSys.run_allocBitmap]
    split
    · rename_i hcall
      rcases ualloc_region c.allocBitmap (elfPhdr c.world ctx).pMemsz with ⟨-, hsame⟩ | ⟨hne, -⟩
      · dsimp only
        rw [hsame]
      · rw [LoadBooks.finishState_of_calls hcall, if_neg hne] at hfinish
        cases hfinish
    · rfl
  · refine perm_elfStep_error hc.wellFormed ?_ hs.stocked hstate
    rw [(LoadSys.keeps_stocked (.elfStep, ctx) status c.toLoadSys).image]
    have hblocks := hc.blocks
    rw [LoadBooks.rest, LoadBooks.regions, List.map_append, List.append_assoc] at hblocks
    exact hblocks

/-- It leaves the memory of all its segments, and these records. -/
theorem LoadBooks.error_iff (h : Accounts ctx c)
    (hc : Carries ctx (c.rest ctx) c.world (.elfStep, ctx) c.heap) (hs : Supplied ctx c.heap c.world)
    (hfinish : c.finishState (.elfStep, ctx) status = some .error) :
    (usedBits (c.run d (.elfStep, ctx) status).allocBitmap = c.elsewhere.bits ∧
        (c.run d (.elfStep, ctx) status).heap.blocks.Perm c.elsewhere.blocks) ↔
      c.replaced = [] ∧
        ∀ p ∈ (c.world.elfCtx ctx).tmpImage.regions, (c.world.region p).regionSize = 0 := by
  obtain ⟨hbitmap, hheap⟩ := @LoadBooks.run_error d ctx status c hc hs hfinish
  have hrecords : usedBits c.allocBitmap = c.elsewhere.bits ↔
      recordBits c.world (c.regions ctx) = ∅ := by
    rw [h.bits, Set.union_eq_right]
    constructor
    · intro hsub
      exact Set.eq_empty_of_subset_empty fun b hb => Set.disjoint_left.1 h.apart hb (hsub hb)
    · intro hnone
      rw [hnone]
      exact Set.empty_subset _
  rw [hbitmap, hrecords]
  constructor
  · rintro ⟨hnone, hperm⟩
    have hlength := (hheap.symm.trans hperm).length_eq
    rw [List.length_append, List.length_map] at hlength
    refine ⟨List.eq_nil_of_length_eq_zero (by omega), fun p hp => ?_⟩
    have hmem : p ∈ c.regions ctx := List.mem_append_left _ hp
    rw [← regionBits_eq_empty_iff (h.made p hmem), ← Set.subset_empty_iff, ← hnone]
    exact Set.subset_biUnion_of_mem (u := fun q => regionBits (c.world.region q)) hmem
  · rintro ⟨hreplaced, hsize⟩
    rw [hreplaced] at hheap
    refine ⟨?_, hheap⟩
    rw [LoadBooks.regions, hreplaced, List.append_nil, recordBits]
    refine Set.subset_eq_empty (Set.iUnion₂_subset fun p hp => ?_) rfl
    rw [regionBits, if_pos (hsize p hp)]

/-- The region that is freed, if one is, is the one there was. -/
theorem mem_releasedRegion {p : Ptr} {r : MemoryRegion} (h : r ∈ releasedRegion p w) :
    p ≠ null ∧ r = w.region p := by
  rw [releasedRegion] at h
  split at h
  · exact absurd h List.not_mem_nil
  · rename_i hne
    split at h
    · exact ⟨hne, List.mem_singleton.1 h⟩
    · exact absurd h List.not_mem_nil

/-- The regions released are from `ualloc`, and their bits were others'. -/
theorem Accounts.released (h : Accounts ctx c) {r : MemoryRegion} (hr : r ∈ elfReleased ctx c.world) :
    FromUalloc r ∧ regionBits r ⊆ c.elsewhere.bits := by
  rw [elfReleased] at hr
  rcases List.mem_append.1 hr with hr | hr
  · obtain ⟨hne, rfl⟩ := mem_releasedRegion hr
    exact (h.held _ (Or.inl rfl) hne).2
  · obtain ⟨hne, rfl⟩ := mem_releasedRegion hr
    obtain ⟨hbase, hsize⟩ :=
      (releaseMemorySegment_spec (c.world.pcb (c.world.elfCtx ctx).pcb).ptextMemoryRegion
        c.world).2.2.2 (c.world.pcb (c.world.elfCtx ctx).pcb).pdataMemoryRegion
    obtain ⟨-, hfrom, hsub⟩ := h.held _ (Or.inr rfl) hne
    exact ⟨hfrom.congr hbase hsize, (regionBits_congr hbase hsize).subset.trans hsub⟩

/-- The regions of the process after a load that succeeds are those of the image. -/
theorem processBits_elfFinish (hstate : (w.elfCtx ctx).state ≠ .error) :
    processBits (elfFinish ctx w).1 (w.elfCtx ctx).pcb =
      recordBits w (w.elfCtx ctx).tmpImage.regions := by
  have hregion : ∀ q, ((elfFinish ctx w).1.region q).physicalBase = (w.region q).physicalBase ∧
      ((elfFinish ctx w).1.region q).regionSize = (w.region q).regionSize := by
    intro q
    rw [elfFinish, if_neg hstate]
    dsimp only [unblockProcess]
    obtain ⟨hbase, hsize⟩ := (releaseMemorySegment_spec _ _).2.2.2 q
    rw [hbase, hsize]
    obtain ⟨hbase, hsize⟩ := (releaseMemorySegment_spec _ _).2.2.2 q
    rw [hbase, hsize]
    exact ⟨rfl, rfl⟩
  have hpcb : ((elfFinish ctx w).1.pcb (w.elfCtx ctx).pcb).ptextMemoryRegion =
        (w.elfCtx ctx).tmpImage.ptextMemoryRegion ∧
      ((elfFinish ctx w).1.pcb (w.elfCtx ctx).pcb).pdataMemoryRegion =
        (w.elfCtx ctx).tmpImage.pdataMemoryRegion := by
    rw [elfFinish, if_neg hstate]
    dsimp only [unblockProcess]
    simp only [Function.update_self, and_self]
  have hbits : ∀ p, regionBitsAt (elfFinish ctx w).1 p = recordBits w ([p].filter (· ≠ null)) := by
    intro p
    by_cases hnull : p = null
    · rw [regionBitsAt, if_pos hnull]
      simp [recordBits, hnull]
    · rw [regionBitsAt, if_neg hnull, regionBits_congr (hregion p).1 (hregion p).2]
      simp [recordBits, hnull]
  have hsplit : (w.elfCtx ctx).tmpImage.regions =
      [(w.elfCtx ctx).tmpImage.ptextMemoryRegion].filter (· ≠ null) ++
        [(w.elfCtx ctx).tmpImage.pdataMemoryRegion].filter (· ≠ null) :=
    List.filter_append [_] [_]
  rw [processBits, hpcb.1, hpcb.2, hbits, hbits, hsplit, recordBits_append]

/-- A bit is of the image `I`, or lost (`R`), or of others (`O`): clearing `C` leaves the image and what
others keep if it hits what they give up and what is lost, and no more. -/
theorem sdiff_eq_iff {I R O F C : Set Int} (hF : F ⊆ O) (hIR : Disjoint I R) (hO : Disjoint (I ∪ R) O) :
    (I ∪ R ∪ O) \ C = O \ F ∪ I ↔ (I ∪ R ∪ O) ∩ C = F ∪ R := by
  simp only [Set.ext_iff, Set.mem_sdiff, Set.mem_union, Set.mem_inter_iff]
  refine forall_congr' fun b => ?_
  have hFO : b ∈ F → b ∈ O := fun hb => hF hb
  have hIR : b ∈ I → b ∉ R := fun hb => Set.disjoint_left.1 hIR hb
  have hIO : b ∈ I → b ∉ O := fun hb => Set.disjoint_left.1 hO (Or.inl hb)
  have hRO : b ∈ R → b ∉ O := fun hb => Set.disjoint_left.1 hO (Or.inr hb)
  grind

/-- **A load that succeeds** has what it should, if what is cleared in use is what was released and
what was lost hold of. -/
theorem LoadBooks.done_iff (h : Accounts ctx c)
    (hfinish : c.finishState (.elfStep, ctx) status = some .done) :
    usedBits (c.run d (.elfStep, ctx) status).allocBitmap =
        (c.elsewhere.bits \ ⋃ r ∈ elfReleased ctx c.world, regionBits r) ∪
          processBits (c.run d (.elfStep, ctx) status).world (c.world.elfCtx ctx).pcb ↔
      (usedBits c.allocBitmap ∩ ⋃ r ∈ elfReleased ctx c.world, clearedBits r) =
        (⋃ r ∈ elfReleased ctx c.world, regionBits r) ∪ recordBits c.world c.replaced := by
  have hstate : elfFinishState ctx status (c.stocked (.elfStep, ctx) status) = some .done := by
    rwa [LoadBooks.finishState, if_pos rfl] at hfinish
  have hno : ¬ CallsUalloc (.elfStep, ctx) status c.world := by
    intro hcall
    rw [LoadBooks.finishState_of_calls hcall] at hfinish
    split at hfinish
    · cases hfinish
    · cases hfinish
  rw [LoadSys.stocked, if_neg hno] at hstate
  have hbitmap : usedBits (c.run d (.elfStep, ctx) status).allocBitmap =
      usedBits c.allocBitmap \ ⋃ r ∈ elfReleased ctx c.world, clearedBits r := by
    rw [LoadBooks.run]
    dsimp only
    rw [if_pos hfinish, LoadSys.run_allocBitmap, if_neg hno,
      usedBits_ufreeRegions _ _ fun r hr => (h.released hr).1]
  have hprocess : processBits (c.run d (.elfStep, ctx) status).world (c.world.elfCtx ctx).pcb =
      recordBits c.world (c.world.elfCtx ctx).tmpImage.regions := by
    obtain ⟨w₁, heq, hdone, hkeeps, -⟩ := elfStep_of_finish (d := d) hstate
    have hworld := (LoadBooks.run_code d (.elfStep, ctx) status c).1
    rw [LoadSys.stocked, if_neg hno] at hworld
    change _ = (elfStep d ctx status c.world).1 at hworld
    rw [hworld, heq, ← hkeeps.target, processBits_elfFinish (by rw [hdone]; nofun), hkeeps.image,
      recordBits_congr fun p _ => congrFun hkeeps.region p]
  have hsub : (⋃ r ∈ elfReleased ctx c.world, regionBits r) ⊆ c.elsewhere.bits :=
    Set.iUnion₂_subset fun r hr => (h.released hr).2
  have hboth : recordBits c.world (c.regions ctx) =
      recordBits c.world (c.world.elfCtx ctx).tmpImage.regions ∪ recordBits c.world c.replaced :=
    recordBits_append _ _ _
  have hapart := h.apart
  have hbits := h.bits
  have hlost : Disjoint (recordBits c.world (c.world.elfCtx ctx).tmpImage.regions)
      (recordBits c.world c.replaced) := by
    have hpairs := (List.pairwise_append.1 h.pairwise).2.2
    simp only [recordBits, Set.disjoint_iUnion_left, Set.disjoint_iUnion_right]
    exact fun p hp q hq => hpairs q hq p hp
  rw [hboth] at hapart hbits
  rw [hbitmap, hprocess, hbits]
  exact sdiff_eq_iff hsub hlost hapart

end Leak

/-- **A load leaks unless it is tidy.**  In every run of a load, whatever the sectors hold, however
the reads end and whatever else happens in between, when `elf_finish` runs: nothing leaks if and only
if it fails before a segment has memory, or succeeds with every region in its place and the releases
clearing what they should. -/
theorem elf_leak_iff (d : FatDriver) (ctx : Ptr) (c : LoadBooks) (k : FsClosure) (status : Int)
    (h : BooksReach d ctx c) (hcall : c.action = .call k status) (hs : Supplied ctx c.heap c.world) :
    c.NoLeak d k status ↔ c.Tidy k status := by
  obtain ⟨haccounts, hcarries⟩ := h.inv (by rw [hcall]; nofun)
  rw [hcall] at hcarries
  refine and_congr (forall_congr' fun hfinish => ?_) (forall_congr' fun hfinish => ?_)
  · obtain ⟨rfl, -⟩ := LoadBooks.loader_of_finishes hcarries.works hfinish
    exact LoadBooks.error_iff haccounts hcarries hs hfinish
  · obtain ⟨rfl, -⟩ := LoadBooks.loader_of_finishes hcarries.works hfinish
    exact LoadBooks.done_iff haccounts hfinish

/-! ### Two loads

The executable is the one whose text is its own table, with segments of 84 and of 8 bytes. -/

/-- The load on its own: a sector asked for is read, and a callback called.  The reads `bad` picks
fail. -/
def LoadBooks.advance (d : FatDriver) (disk : Word → Sector) (fails : Bool) (c : LoadBooks) :
    LoadBooks :=
  match c.action with
  | .post b k => { c with rx := disk b, action := .call k (if fails then 1 else 0) }
  | .call k status => c.run d k status
  | .stop => c

/-- The load of `A` after `n` steps, when what is asked for in step `bad` cannot be read. -/
def booksAfter (disk : Word → Sector) (bad : Nat) : Nat → LoadBooks
  | 0 => .submit smallDriver (pathOf [nameA]) 0x700 (fun _ => 0) emptyWorld emptyBitmap ⟨[], []⟩
  | n + 1 => (booksAfter disk bad n).advance smallDriver disk (n == bad)

/-- What `kmalloc` hands out next is unused, if a callback is to be called. -/
def LoadBooks.nextSupplied (ctx : Ptr) (c : LoadBooks) : Bool :=
  match c.action with
  | .call .. => decide (Supplied ctx c.heap c.world)
  | .post .. | .stop => true

theorem LoadBooks.supplied_of_next {ctx : Ptr} {c : LoadBooks} {k : FsClosure} {status : Int}
    (h : c.nextSupplied ctx = true) (hcall : c.action = .call k status) :
    Supplied ctx c.heap c.world := by
  rw [LoadBooks.nextSupplied, hcall] at h
  exact of_decide_eq_true h

theorem booksAfter_reach {disk : Word → Sector} {bad n : Nat}
    (hs : ∀ i < n, (booksAfter disk bad i).nextSupplied 0x1000 = true) :
    BooksReach smallDriver 0x1000 (booksAfter disk bad n) := by
  induction n with
  | zero =>
    refine .submit rfl List.nodup_nil ⟨List.not_mem_nil, List.not_mem_nil⟩
      ⟨List.not_mem_nil, by decide, by decide⟩ fun p hp hne => ?_
    rcases hp with rfl | rfl <;> exact absurd rfl hne
  | succ n ih =>
    have hreach := ih fun i hi => hs i (by omega)
    rw [booksAfter, LoadBooks.advance]
    split
    · rename_i hpost
      exact hreach.complete _ _ hpost
    · rename_i hcall
      exact hreach.run hcall (LoadBooks.supplied_of_next (hs n (Nat.lt_succ_self n)) hcall)
    · exact hreach

/-- Nothing goes on elsewhere. -/
theorem booksAfter_elsewhere (disk : Word → Sector) (bad n : Nat) :
    (booksAfter disk bad n).elsewhere = ⟨usedBits emptyBitmap, []⟩ := by
  induction n with
  | zero => rfl
  | succ n ih =>
    rw [booksAfter, LoadBooks.advance]
    split
    · exact ih
    · exact ih
    · exact ih

/-- Nothing is wanting in the load of the executable, which ends in its 21st state. -/
theorem booksAfter_overlapping :
    (∀ i < 22, (booksAfter overlappingElf.disk 22 i).nextSupplied 0x1000 = true) ∧
      (booksAfter overlappingElf.disk 22 21).action = .call (.elfStep, 0x1000) 0 ∧
      (booksAfter overlappingElf.disk 22 21).finishState (.elfStep, 0x1000) 0 = some .done := by
  decide +kernel

/-- A load that goes well leaves the three blocks of its two segments marked. -/
theorem elf_leak_iff_loaded :
    let c := booksAfter overlappingElf.disk 22 21
    let k : FsClosure := (.elfStep, 0x1000)
    c.action = .call k 0 ∧ c.finishState k 0 = some .done ∧ c.NoLeak smallDriver k 0 := by
  obtain ⟨hsupplied, hcall, hfinish⟩ := booksAfter_overlapping
  have hlast : Supplied 0x1000 (booksAfter overlappingElf.disk 22 21).heap
      (booksAfter overlappingElf.disk 22 21).world :=
    LoadBooks.supplied_of_next (hsupplied 21 (by omega)) hcall
  have hreleased : elfReleased 0x1000 (booksAfter overlappingElf.disk 22 21).world = [] := by
    decide +kernel
  have hreplaced : (booksAfter overlappingElf.disk 22 21).replaced = [] := by decide +kernel
  refine ⟨hcall, hfinish, (elf_leak_iff smallDriver 0x1000 _ _ _
    (booksAfter_reach fun i hi => hsupplied i (by omega)) hcall hlast).2 ⟨fun herr => ?_, fun _ => ?_⟩⟩
  · rw [hfinish] at herr
    cases herr
  · dsimp only
    rw [hreleased, hreplaced]
    simp [recordBits]

/-- A load that fails when its first segment is read leaves the two blocks of it marked. -/
theorem elf_leaks_segment :
    ¬ ∀ (d : FatDriver) (ctx : Ptr) (c : LoadBooks) (k : FsClosure) (status : Int),
      BooksReach d ctx c → c.action = .call k status → Supplied ctx c.heap c.world →
        c.NoLeak d k status := by
  intro h
  have hsupplied : ∀ i < 14, (booksAfter overlappingElf.disk 11 i).nextSupplied 0x1000 = true := by
    decide +kernel
  have hcall : (booksAfter overlappingElf.disk 11 13).action = .call (.elfStep, 0x1000) 1 := by
    decide +kernel
  have hlast : Supplied 0x1000 (booksAfter overlappingElf.disk 11 13).heap
      (booksAfter overlappingElf.disk 11 13).world :=
    LoadBooks.supplied_of_next (hsupplied 13 (by omega)) hcall
  have hfinish : (booksAfter overlappingElf.disk 11 13).finishState (.elfStep, 0x1000) 1 =
      some .error := by decide +kernel
  have hafter : test ((booksAfter overlappingElf.disk 11 13).run smallDriver (.elfStep, 0x1000)
      1).allocBitmap 0 = true := by decide +kernel
  have hbefore : test emptyBitmap 0 = false := by decide +kernel
  have hbits := ((h smallDriver 0x1000 _ _ _
    (booksAfter_reach fun i hi => hsupplied i (by omega)) hcall hlast).1 hfinish).1
  have hmem : (0 : Int) ∈ usedBits ((booksAfter overlappingElf.disk 11 13).run smallDriver
      (.elfStep, 0x1000) 1).allocBitmap := ⟨le_rfl, by decide, hafter⟩
  rw [hbits, booksAfter_elsewhere] at hmem
  exact Bool.false_ne_true (hbefore.symm.trans hmem.2.2)

end RiscyOS
