import RiscyOS.Memory.SlabThrift
import RiscyOS.Memory.UmemSpec
import RiscyOS.Process.Fork
import RiscyOS.Process.TablePids

/-!
# A fork that fails

`ecall_fork` asks for three things, user memory, a PCB and a region record, and when one of them is refused
it has to give back what it has got before.  The three exits fall through one another: `fork_dmem_seg_fail`
gives the PCB back, `fork_pcb_fail` the user memory, `fork_ualloc_fail` the use of the text region.

In `RiscyOS.Process.Table` what the allocators return is part of the event.  Here they are called:

* `ForkSystem` — the table with the bitmap of user memory and the slab cache of the PCBs.  The words that
  the cache and the heap keep for themselves are in no record, and are in the memory of `slab`.
* `ForkSystem.ecallFork` — `ecall_fork` with `ualloc`, `slab_get`, `kmalloc` and what undoes them.  To the
  table it does what `Kernel.ecallFork` does (`ForkSystem.ecallFork_table`).
* `ForkKept` — the table, the heap and the cache are what they were, except that a slab that was added for the
  child stays.  A failed fork comes to that whenever the use of the text region is counted (`fork_failed_kept`).
* `ForkUndone` — all is as it was, but for -1 in the `a0` of the parent.  `fork_failed_iff` says when that is
  so: `ufree` is seldom the inverse of `ualloc`, and without a PCB the process id is stored at address 164.
-/

set_option autoImplicit false

namespace RiscyOS

open Memory Bitmap

/-- The process table and the allocators that fork calls. -/
structure ForkSystem where
  table : Kernel
  allocBitmap : Bits
  /-- `pcb_slab_head`, and the heap as far as the cache is concerned. -/
  slab : SlabState

namespace ForkSystem

section Functions

variable (A : Allocator) (f : ForkSystem)

/-- `release_memory_segment`, with `ufree` and `kfree`. -/
def releaseMemorySegment (a0 : Ptr) : ForkSystem :=
  let table := f.table.releaseMemorySegment a0
  if a0 = null then { f with table := table } else
    let t0 := word f.table.mem a0 memoryRegionRefCount - 1
    if t0 = 0 then
      { table := table
        allocBitmap := ufree (word f.table.mem a0 memoryRegionPhysicalBase)
          (word f.table.mem a0 memoryRegionSize) f.allocBitmap
        slab := { f.slab with
          heap := A.free a0 ⟨f.slab.heap.mem, ⟨a0, memoryRegionStructSize⟩ :: f.slab.heap.blocks⟩ } }
    else { f with table := table }

/-- `make_memory_segment`.  The record is in the books of the table and not in those of the cache. -/
def makeMemorySegment : Ptr × ForkSystem :=
  let r := A.malloc (BitVec.ofNat 32 memoryRegionStructSize) f.slab.heap
  (r.1, { f with slab.heap.mem := r.2.mem })

/-- `alloc_pcb`, with what `slab_get` returns. -/
def allocPcb (got : Ptr × SlabState) : ForkSystem :=
  { f with table := f.table.allocPcb got.1, slab := got.2 }

/-- `MEMORY_REGION_SIZE` of the data region. -/
def dataSize (s0 : Ptr) : Word := word f.table.mem (f.table.pdata s0) memoryRegionSize

/-- `fork_ualloc_fail`. -/
def forkUallocFail (s0 : Ptr) : ForkSystem :=
  let f := f.releaseMemorySegment A (f.table.ptext s0)
  { f with table.mem := setWord f.table.mem s0 tfA0 (-1) }

/-- `fork_pcb_fail`. -/
def forkPcbFail (s0 : Ptr) (umem : Word) : ForkSystem :=
  { f with allocBitmap := ufree umem (f.dataSize s0) f.allocBitmap }.forkUallocFail A s0

/-- `fork_dmem_seg_fail`. -/
def forkDmemSegFail (s0 pcb : Ptr) (umem : Word) : Option ForkSystem := do
  let slab ← slabFree A pcb f.slab
  some ({ f with table := f.table.freePcb pcb, slab := slab }.forkPcbFail A s0 umem)

/-- `ecall_fork` up to `ualloc`: the text region has one more user. -/
def forkBegin (s0 : Ptr) : ForkSystem :=
  { f with table.mem := Kernel.aquireMemorySegment f.table.mem (f.table.ptext s0) }

/-- The call of `ualloc`. -/
def forkUalloc (s0 : Ptr) : Ptr × Bits := ualloc ((f.forkBegin s0).dataSize s0) f.allocBitmap

/-- The state in which `ualloc` returns. -/
def forkUmem (s0 : Ptr) : ForkSystem := { f.forkBegin s0 with allocBitmap := (f.forkUalloc s0).2 }

/-- `ecall_fork`. -/
def ecallFork (a0 : Ptr) (a2 : Word) : Option ForkSystem :=
  let s0 := a0
  let umem := (f.forkUalloc s0).1
  let f := f.forkUmem s0
  if umem = 0 then some (f.forkUallocFail A s0) else do
    let pcb ← slabGet A f.slab
    let f := f.allocPcb pcb
    if pcb.1 = null then some (f.forkPcbFail A s0 umem) else
      let region := f.makeMemorySegment A
      let f := region.2
      if region.1 = null then f.forkDmemSegFail A s0 pcb.1 umem else
        let g : Kernel.ForkGrants := ⟨umem, pcb.1, region.1, a2⟩
        some { f with
          table.regions := region.1 :: f.table.regions
          table.mem := Kernel.forkStores (f.table.forkRegion s0 g) f.table.csr s0 g }

/-- What `slab_get` returns, if it is called. -/
def forkPcb (s0 : Ptr) : Ptr :=
  if (f.forkUalloc s0).1 = 0 then null else ((slabGet A f.slab).getD (null, f.slab)).1

/-- What the allocators return. -/
def forkGrants (s0 : Ptr) (a2 : Word) : Kernel.ForkGrants where
  umem := (f.forkUalloc s0).1
  pcb := f.forkPcb A s0
  region := (A.malloc (BitVec.ofNat 32 memoryRegionStructSize)
    ((slabGet A f.slab).getD (null, f.slab)).2.heap).1
  a2 := a2

end Functions

variable {A : Allocator} {f t : ForkSystem} {s0 : Ptr} {a2 : Word} {got : Ptr × SlabState}

/-! ## The three exits -/

theorem ecallFork_ualloc (humem : (f.forkUalloc s0).1 = 0) :
    f.ecallFork A s0 a2 = some ((f.forkUmem s0).forkUallocFail A s0) :=
  if_pos humem

section Exits

variable (humem : (f.forkUalloc s0).1 ≠ 0) (hget : slabGet A f.slab = some got)

include humem hget

/-- What follows `slab_get`. -/
theorem ecallFork_got : f.ecallFork A s0 a2 =
    if got.1 = null then some (((f.forkUmem s0).allocPcb got).forkPcbFail A s0 (f.forkUalloc s0).1) else
      let region := ((f.forkUmem s0).allocPcb got).makeMemorySegment A
      if region.1 = null then region.2.forkDmemSegFail A s0 got.1 (f.forkUalloc s0).1 else
        let g : Kernel.ForkGrants := ⟨(f.forkUalloc s0).1, got.1, region.1, a2⟩
        some { region.2 with
          table.regions := region.1 :: region.2.table.regions
          table.mem := Kernel.forkStores (region.2.table.forkRegion s0 g) region.2.table.csr s0 g } := by
  rw [ecallFork, if_neg humem, show (f.forkUmem s0).slab = f.slab from rfl, hget]
  rfl

theorem ecallFork_pcb (hpcb : got.1 = null) :
    f.ecallFork A s0 a2 = some (((f.forkUmem s0).allocPcb got).forkPcbFail A s0 (f.forkUalloc s0).1) := by
  rw [ecallFork_got humem hget, if_pos hpcb]

theorem ecallFork_region (hpcb : got.1 ≠ null)
    (hregion : (((f.forkUmem s0).allocPcb got).makeMemorySegment A).1 = null) :
    f.ecallFork A s0 a2 = (((f.forkUmem s0).allocPcb got).makeMemorySegment A).2.forkDmemSegFail A s0 got.1
      (f.forkUalloc s0).1 := by
  rw [ecallFork_got humem hget, if_neg hpcb]
  exact if_pos hregion

theorem forkPcb_eq : f.forkPcb A s0 = got.1 := by
  rw [forkPcb, if_neg humem, hget]
  rfl

theorem forkGrants_eq : f.forkGrants A s0 a2 =
    ⟨(f.forkUalloc s0).1, got.1, (((f.forkUmem s0).allocPcb got).makeMemorySegment A).1, a2⟩ := by
  rw [forkGrants, forkPcb_eq humem hget, hget]
  rfl

end Exits

/-! ## The table -/

theorem releaseMemorySegment_table (f : ForkSystem) (a0 : Ptr) :
    (f.releaseMemorySegment A a0).table = f.table.releaseMemorySegment a0 := by
  rw [releaseMemorySegment]
  split
  · rfl
  · simp only
    split <;> rfl

theorem forkUallocFail_table (f : ForkSystem) (s0 : Ptr) :
    (f.forkUallocFail A s0).table = f.table.forkUallocFail s0 := by
  rw [forkUallocFail, Kernel.forkUallocFail]
  simp only [releaseMemorySegment_table]

/-- **To the table fork does the same** as with these answers. -/
theorem ecallFork_table (h : f.ecallFork A s0 a2 = some t) :
    t.table = f.table.ecallFork s0 (f.forkGrants A s0 a2) := by
  by_cases humem : (f.forkUalloc s0).1 = 0
  · rw [ecallFork_ualloc humem] at h
    rw [Kernel.ecallFork, if_pos (show (f.forkGrants A s0 a2).umem = 0 from humem), ← Option.some.inj h,
      forkUallocFail_table]
    rfl
  cases hget : slabGet A f.slab with
  | none =>
    rw [ecallFork, if_neg humem, show (f.forkUmem s0).slab = f.slab from rfl, hget] at h
    exact absurd h (by simp)
  | some got =>
    rw [forkGrants_eq humem hget, Kernel.ecallFork, if_neg humem]
    rw [ecallFork_got humem hget] at h
    simp only
    by_cases hpcb : got.1 = null
    · rw [if_pos hpcb] at h ⊢
      rw [← Option.some.inj h, forkPcbFail, forkUallocFail_table]
      rfl
    rw [if_neg hpcb] at h ⊢
    simp only at h
    by_cases hregion : (((f.forkUmem s0).allocPcb got).makeMemorySegment A).1 = null
    · rw [if_pos hregion, forkDmemSegFail, Option.bind_eq_bind, Option.bind_eq_some_iff] at h
      obtain ⟨slab, -, ht⟩ := h
      rw [if_pos hregion, ← Option.some.inj ht, forkPcbFail, forkUallocFail_table]
      rfl
    · rw [if_neg hregion] at h ⊢
      rw [← Option.some.inj h]
      rfl

end ForkSystem

/-! ## What a failed fork should leave -/

/-- `pcb_slab_object_size`. -/
def pcbSlabObjectSize : Word := BitVec.ofNat 32 pcbSize

/-- `pcb_slab_object_count`. -/
def pcbSlabObjectCount : Word := 5

/-- The cache that `slab_defs` describes for the PCBs. -/
def pcbCache : SlabShape := ⟨pcbSlabObjectSize, pcbSlabObjectCount, by decide, by decide, by decide⟩

/-- **The state in which fork is called.**  The records are apart, the regions of the parent are among them,
and the PCBs are the objects of the cache that are in use.  What the cache returns is apart from the
records too. -/
structure ForkSound (A : Allocator) (f : ForkSystem) (s0 : Ptr) : Prop where
  placed : f.table.Placed
  parent : s0 ∈ f.table.pcbs
  ptext : f.table.ptext s0 = null ∨ f.table.ptext s0 ∈ f.table.regions
  pdata : f.table.pdata s0 = null ∨ f.table.pdata s0 ∈ f.table.regions
  cache : SlabReach pcbCache f.slab f.table.pcbs
  grants : f.table.Grants (f.forkPcb A s0) pcbSize

/-- The bytes of a PCB that has been handed out and given back. -/
def spareSpans (pcb : Ptr) : List Span := if pcb = null then [] else [pcbSpan pcb]

/-- **The table is what it was**: the ring, the region records and their reference counts.  The parent has
got -1, and else memory differs in `S` only. -/
structure TableKept (s t : Kernel) (s0 : Ptr) (S : List Span) : Prop where
  a0 : word t.mem s0 tfA0 = -1
  regions : t.regions = s.regions
  pcbs : t.pcbs = s.pcbs
  currentPcb : t.currentPcb = s.currentPcb
  fields : s.Same t
  refCount : ∀ r ∈ s.regions, t.refCount r = s.refCount r
  mem : Alters (part s0 tfA0 4 :: S) s.mem t.mem

/-- **Nothing has changed**, neither in the table nor in the bitmap, the blocks of the heap and the cache,
with the order of its free lists.  The object of the cache that was taken is free again. -/
structure ForkUndone (f t : ForkSystem) (s0 pcb : Ptr) : Prop extends
    TableKept f.table t.table s0 (spareSpans pcb) where
  bitmap : t.allocBitmap = f.allocBitmap
  blocks : t.slab.heap.blocks.Perm f.slab.heap.blocks
  cache : ∃ slabs free, CacheRepr pcbCache f.slab slabs free ∧ CacheRepr pcbCache t.slab slabs free

/-- **Nothing has been lost.**  The cache and the blocks of the heap are what they were, or the cache had
nothing free and has one slab more, with all its objects free; and the byte of a PCB that the process id
goes to may differ. -/
structure ForkKept (A : Allocator) (f t : ForkSystem) (s0 : Ptr) : Prop extends
    TableKept f.table t.table s0 (if (f.forkUalloc s0).1 = 0 then [] else [part (f.forkPcb A s0) pcbPid 1]) where
  cache : ∃ slabs free, CacheRepr pcbCache f.slab slabs free ∧
    (CacheRepr pcbCache t.slab slabs free ∧ t.slab.heap.blocks.Perm f.slab.heap.blocks ∨
      (∀ b ∈ slabs, free b = []) ∧ ∃ b, b ∉ slabs ∧
        CacheRepr pcbCache t.slab (b :: slabs) (Function.update free b (List.range pcbCache.num)) ∧
        t.slab.heap.blocks.Perm (pcbCache.block b :: f.slab.heap.blocks))

/-! ## The exit that they share -/

namespace Kernel

section Taken

variable {s u : Kernel} {r : Ptr} {S : List Span} (h : Alters S (aquireMemorySegment s.mem r) u.mem)
  (hS : ∀ b ∈ S, b.Apart (part r memoryRegionRefCount 4))

include h hS

/-- A region that has been taken has one user more, with stores elsewhere since. -/
theorem refCount_aquired (hr : r ≠ null) : word u.mem r memoryRegionRefCount = s.refCount r + 1 := by
  rw [h.word hS, aquireMemorySegment, if_neg hr, word_setWord, refCount]

/-- **Taking a region and giving it back.** -/
theorem release_aquire (hcount : r = null ∨ s.refCount r ≠ 0) : (u.releaseMemorySegment r).regions = u.regions ∧
    Alters S s.mem (u.releaseMemorySegment r).mem ∧
      ∀ x, (∃ b ∈ S, b.Has x) → (u.releaseMemorySegment r).mem x = u.mem x := by
  by_cases hr : r = null
  · subst hr
    rw [aquireMemorySegment, if_pos rfl] at h
    rw [releaseMemorySegment, if_pos rfl]
    exact ⟨rfl, h, fun _ _ => rfl⟩
  rw [releaseMemorySegment, if_neg hr]
  simp only [refCount_aquired h hS hr, BitVec.add_sub_cancel]
  rw [if_neg (hcount.resolve_left hr)]
  refine ⟨rfl, fun x hx => ?_, fun x hx => ?_⟩
  · by_cases hin : (part r memoryRegionRefCount 4).Has x
    · -- the count that is stored is the one that was there
      calc setWord u.mem r memoryRegionRefCount (s.refCount r) x
          = setWord s.mem r memoryRegionRefCount (s.refCount r) x := (if_pos hin).trans (if_pos hin).symm
        _ = s.mem x := congrFun (store32_load32 _ _) x
    · have hout : ∀ b ∈ [part r memoryRegionRefCount 4], ¬ b.Has x := List.forall_mem_singleton.2 hin
      exact ((alters_setWord _ _ _ _ x hout).trans (h x hx)).trans (aquireMemorySegment_alters _ _ x hout)
  · obtain ⟨b, hb, hx⟩ := hx
    exact alters_setWord _ _ _ _ x (List.forall_mem_singleton.2 (hS b hb x hx))

/-- The last user gone, the record is gone as well. -/
theorem release_last (hr : r ≠ null) (hcount : s.refCount r = 0) (hmem : r ∈ u.regions) :
    (u.releaseMemorySegment r).regions ≠ u.regions := by
  rw [releaseMemorySegment, if_neg hr]
  simp only [refCount_aquired h hS hr, hcount, BitVec.add_sub_cancel, if_true]
  intro heq
  have hlen := congrArg List.length heq
  rw [List.length_erase_of_mem hmem] at hlen
  have hpos := List.length_pos_of_mem hmem
  omega

end Taken

end Kernel

variable {A : Allocator} {f t u : ForkSystem} {s0 : Ptr} {a2 : Word} {S : List Span}

namespace ForkSystem

/-- The use of the text region can be given back. -/
def TextHeld (f : ForkSystem) (s0 : Ptr) : Prop :=
  f.table.ptext s0 = null ∨ f.table.refCount (f.table.ptext s0) ≠ 0

instance (f : ForkSystem) (s0 : Ptr) : Decidable (f.TextHeld s0) := inferInstanceAs (Decidable (_ ∨ _))

/-- The stores of a fork before it fails are in no PCB, and not in a reference count. -/
def StoresApart (f : ForkSystem) (S : List Span) : Prop :=
  ∀ b ∈ S, f.table.Outside b ∧ ∀ r, r = null ∨ r ∈ f.table.regions → b.Apart (part r memoryRegionRefCount 4)

end ForkSystem

open ForkSystem

/-- The free object is in no PCB, and no reference count is in it. -/
theorem ForkSound.spare (hs : ForkSound A f s0) : f.StoresApart (spareSpans (f.forkPcb A s0)) := by
  rw [StoresApart, spareSpans]
  split
  · exact fun b hb => absurd hb List.not_mem_nil
  · rename_i hne
    obtain ⟨hlow, -, hregions⟩ := hs.grants.resolve_left hne
    refine List.forall_mem_singleton.2 ⟨hs.placed.outside_of_grants hs.grants (by decide), fun r hr x hx hx' => ?_⟩
    rcases hr with rfl | hr
    · exact hlow x hx (has_of_part hx' (by decide))
    · exact hregions r hr x hx (has_of_part hx' (by decide))

/-- The `a0` of the parent is not in a reference count. -/
theorem ForkSound.a0_count (hs : ForkSound A f s0) {r : Ptr} (hr : r ∈ f.table.regions) :
    (part s0 tfA0 4).Apart (part r memoryRegionRefCount 4) :=
  (hs.placed.cross s0 hs.parent r hr).part (by decide) (by decide)

namespace ForkSystem

section Shared

variable (hs : ForkSound A f s0) (h : Alters S (f.forkBegin s0).table.mem u.table.mem) (hS : f.StoresApart S)

include hs h hS

/-- The pointer to the text region is still there. -/
theorem ptext_kept : u.table.ptext s0 = f.table.ptext s0 := by
  have hbegin : Alters [part (f.table.ptext s0) memoryRegionRefCount 4] f.table.mem (f.forkBegin s0).table.mem :=
    Kernel.aquireMemorySegment_alters _ _
  have hout := hs.placed.outside_count (hs.placed.regionOutside hs.ptext)
  refine (h.word fun b hb => ?_).trans (hbegin.word (List.forall_mem_singleton.2 ?_))
  · exact (hS b hb).1.spares (by decide) s0 hs.parent
  · exact hout.spares (by decide) s0 hs.parent

/-- `fork_ualloc_fail` gives back the text region that was taken. -/
theorem forkUallocFail_text : (u.forkUallocFail A s0).table =
    let s := u.table.releaseMemorySegment (f.table.ptext s0)
    { s with mem := setWord s.mem s0 tfA0 (-1) } := by
  rw [forkUallocFail_table, Kernel.forkUallocFail, ptext_kept hs h hS]

/-- With users left the allocators are not called. -/
theorem forkUallocFail_held (htext : f.TextHeld s0) :
    u.forkUallocFail A s0 = { u with table := (u.forkUallocFail A s0).table } := by
  have hrelease : u.releaseMemorySegment A (f.table.ptext s0) =
      { u with table := u.table.releaseMemorySegment (f.table.ptext s0) } := by
    rw [releaseMemorySegment]
    by_cases hr : f.table.ptext s0 = null
    · rw [if_pos hr]
    rw [if_neg hr]
    refine if_neg ?_
    rw [Kernel.refCount_aquired h (fun b hb => (hS b hb).2 _ hs.ptext) hr, BitVec.add_sub_cancel]
    exact htext.resolve_left hr
  rw [forkUallocFail, ptext_kept hs h hS, hrelease]

/-- With none left the record is given back. -/
theorem textHeld_of_regions (hregions : u.table.regions = f.table.regions)
    (hkept : (u.forkUallocFail A s0).table.regions = f.table.regions) : f.TextHeld s0 := by
  by_contra hnot
  obtain ⟨hne, hzero⟩ := not_or.1 hnot
  have hmem : f.table.ptext s0 ∈ u.table.regions := hregions ▸ hs.ptext.resolve_left hne
  rw [forkUallocFail_text hs h hS, ← hregions] at hkept
  exact Kernel.release_last h (fun b hb => (hS b hb).2 _ hs.ptext) hne (not_not.1 hzero) hmem hkept

/-- A store of a fork that is undone has stored what was there. -/
theorem stores_undone (htext : f.TextHeld s0)
    (hmem : Alters (part s0 tfA0 4 :: spareSpans (f.forkPcb A s0)) f.table.mem (u.forkUallocFail A s0).table.mem) :
    Alters (spareSpans (f.forkPcb A s0)) (f.forkBegin s0).table.mem u.table.mem := by
  intro x hx
  by_cases hin : ∃ b ∈ S, b.Has x
  · obtain ⟨-, -, hrest⟩ := Kernel.release_aquire h (fun b hb => (hS b hb).2 _ hs.ptext) htext
    obtain ⟨b, hb, hbx⟩ := hin
    have ha0 : ¬ (part s0 tfA0 4).Has x := fun hx' =>
      (hS b hb).1 s0 hs.parent x (has_of_part hx' (by decide)) hbx
    have hcount : ¬ (part (f.table.ptext s0) memoryRegionRefCount 4).Has x := (hS b hb).2 _ hs.ptext x hbx
    have hlast : (u.forkUallocFail A s0).table.mem x =
        (u.table.releaseMemorySegment (f.table.ptext s0)).mem x := by
      rw [forkUallocFail_text hs h hS]
      exact alters_setWord _ _ _ _ x (List.forall_mem_singleton.2 ha0)
    calc u.table.mem x
        = (u.table.releaseMemorySegment (f.table.ptext s0)).mem x := (hrest x ⟨b, hb, hbx⟩).symm
      _ = (u.forkUallocFail A s0).table.mem x := hlast.symm
      _ = f.table.mem x := hmem x (List.forall_mem_cons.2 ⟨ha0, hx⟩)
      _ = (f.forkBegin s0).table.mem x :=
        (Kernel.aquireMemorySegment_alters _ _ x (List.forall_mem_singleton.2 hcount)).symm
  · exact h x fun b hb hbx => hin ⟨b, hb, hbx⟩

section Books

variable (hregions : u.table.regions = f.table.regions) (hpcbs : u.table.pcbs = f.table.pcbs)
  (hcur : u.table.currentPcb = f.table.currentPcb)

include hregions hpcbs hcur

/-- **`fork_ualloc_fail` leaves the table what it was.** -/
theorem forkUallocFail_kept (htext : f.TextHeld s0) :
    TableKept f.table (u.forkUallocFail A s0).table s0 S := by
  obtain ⟨hkept, halter, -⟩ := Kernel.release_aquire h (fun b hb => (hS b hb).2 _ hs.ptext) htext
  have hbooks := Kernel.releaseMemorySegment_books u.table (f.table.ptext s0)
  have hmem : Alters (part s0 tfA0 4 :: S) f.table.mem (u.forkUallocFail A s0).table.mem := by
    rw [forkUallocFail_text hs h hS]
    exact (halter.mono fun b hb => .of_mem (List.mem_cons_of_mem _ hb)).setWord (.of_mem List.mem_cons_self)
  have hfields : f.table.Same (u.forkUallocFail A s0).table := Kernel.Same.of_alters hmem (List.forall_mem_cons.2
    ⟨hs.placed.sparesTable hs.parent (Or.inl (by decide)), fun b hb => (hS b hb).1.sparesTable⟩)
  have hcounts : ∀ r ∈ f.table.regions, (u.forkUallocFail A s0).table.refCount r = f.table.refCount r :=
    fun r hr => hmem.word (List.forall_mem_cons.2 ⟨hs.a0_count hr, fun b hb => (hS b hb).2 r (Or.inr hr)⟩)
  rw [forkUallocFail_text hs h hS] at hmem hfields hcounts ⊢
  exact ⟨word_setWord _ _ _ _, hkept.trans hregions, hbooks.pcbs.trans hpcbs, hbooks.currentPcb.trans hcur,
    hfields, hcounts, hmem⟩

/-- It leaves nothing changed if the use of the text region can be given back and everything else has been
undone before. -/
theorem forkUallocFail_undone :
    ForkUndone f (u.forkUallocFail A s0) s0 (f.forkPcb A s0) ↔
      f.TextHeld s0 ∧ u.allocBitmap = f.allocBitmap ∧ u.slab.heap.blocks.Perm f.slab.heap.blocks ∧
        (∃ slabs free, CacheRepr pcbCache f.slab slabs free ∧ CacheRepr pcbCache u.slab slabs free) ∧
        Alters (spareSpans (f.forkPcb A s0)) (f.forkBegin s0).table.mem u.table.mem := by
  constructor
  · intro hundone
    have htext := textHeld_of_regions hs h hS hregions hundone.regions
    have hheld := forkUallocFail_held (A := A) hs h hS htext
    obtain ⟨⟨-, -, -, -, -, -, hmem⟩, hbitmap, hblocks, hcache⟩ := hundone
    refine ⟨htext, ?_, ?_, ?_, stores_undone hs h hS htext hmem⟩
    · rwa [hheld] at hbitmap
    · rwa [hheld] at hblocks
    · rwa [hheld] at hcache
  · rintro ⟨htext, hbitmap, hblocks, hcache, hmem⟩
    have hheld := forkUallocFail_held (A := A) hs h hS htext
    refine ⟨forkUallocFail_kept hs hmem hs.spare hregions hpcbs hcur htext, ?_, ?_, ?_⟩
    · rwa [hheld]
    · rwa [hheld]
    · rwa [hheld]

end Books

end Shared

/-! ## User memory -/

/-- `ufree` takes the marks of `ualloc` away again and no others. -/
def UallocUndone (f : ForkSystem) (s0 : Ptr) : Prop :=
  f.dataSize s0 = 0 ∨
    (sizeToBits (roundNextPowerOfTwo (f.dataSize s0))).toInt ≤ (sizeToBits (f.dataSize s0)).toInt ∧
      ∀ b : Int, 0 ≤ b → b < (sizeToBits (f.dataSize s0)).toInt → test f.allocBitmap b = false

/-- Taking the text region leaves the size of the data region alone, and so does a store elsewhere. -/
theorem dataSize_kept (hs : ForkSound A f s0) (h : Alters S (f.forkBegin s0).table.mem u.table.mem)
    (hS : ∀ b ∈ S, f.table.Outside b ∧ b.Apart (part (f.table.pdata s0) memoryRegionSize 4)) :
    u.dataSize s0 = f.dataSize s0 := by
  have hbegin : Alters [part (f.table.ptext s0) memoryRegionRefCount 4] f.table.mem (f.forkBegin s0).table.mem :=
    Kernel.aquireMemorySegment_alters _ _
  have hpdata : word u.table.mem s0 pcbPdataMemoryRegion = f.table.pdata s0 :=
    (h.word fun b hb => (hS b hb).1.spares (by decide) s0 hs.parent).trans
      ((Kernel.aquire_same (hs.placed.regionOutside hs.ptext)).pdata s0 hs.parent)
  have happart : (part (f.table.ptext s0) memoryRegionRefCount 4).Apart
      (part (f.table.pdata s0) memoryRegionSize 4) := by
    rcases hs.pdata with hd | hd
    · rw [hd]
      rcases hs.ptext with ht | ht
      · rw [ht]
        exact part_apart (Or.inr (by decide)) (by decide) (by decide)
      · exact (hs.placed.regions_low _ ht).part (by decide) (by decide)
    · exact hs.placed.region_part_apart hs.ptext hd (Or.inr (by decide)) (by decide) (by decide)
  rw [dataSize, Kernel.pdata, hpdata, h.word fun b hb => (hS b hb).2,
    hbegin.word (List.forall_mem_singleton.2 happart), dataSize]

theorem forkUalloc_eq (hs : ForkSound A f s0) : f.forkUalloc s0 = ualloc (f.dataSize s0) f.allocBitmap := by
  rw [forkUalloc, dataSize_kept hs (Alters.refl [] _) (by simp)]

theorem ufree_undone (hs : ForkSound A f s0) (humem : (f.forkUalloc s0).1 ≠ 0) :
    ufree (f.forkUalloc s0).1 (f.dataSize s0) (f.forkUalloc s0).2 = f.allocBitmap ↔ f.UallocUndone s0 := by
  rw [forkUalloc_eq hs] at humem ⊢
  rw [UallocUndone]
  by_cases hn : f.dataSize s0 = 0
  · rw [hn]
    exact iff_of_true rfl (Or.inl rfl)
  · rw [ufree_restores_iff _ _ hn humem, or_iff_right hn]

/-! ## The other two exits -/

/-- The process id goes where no word of a region record is. -/
theorem pid_apart (hs : ForkSound A f s0) {r : Ptr} (hr : r = null ∨ r ∈ f.table.regions) {i : Nat}
    (hi : i + 4 ≤ memoryRegionStructSize) : (part (f.forkPcb A s0) pcbPid 1).Apart (part r i 4) := by
  have hi' : i + 4 ≤ 12 := hi
  rcases hs.grants with hnull | ⟨hlow, -, hregions⟩
  · rw [hnull]
    rcases hr with rfl | hr
    · exact part_apart (Or.inr (by rw [pcbPid]; omega)) (by decide) (by omega)
    · exact (hs.placed.regions_low r hr).symm.part (by decide) hi
  · rcases hr with rfl | hr
    · exact hlow.part (by decide) (by omega)
    · exact (hregions r hr).part (by decide) hi

theorem pid_outside (hs : ForkSound A f s0) : f.table.Outside (part (f.forkPcb A s0) pcbPid 1) :=
  (hs.placed.outside_of_grants hs.grants (by decide)).part (by decide)

/-- **The state at `fork_pcb_fail`**, where the exits without a PCB and without a region record have come
together.  The process id has been stored, and the PCB, if there was one, is back in the cache. -/
structure AtPcbFail (A : Allocator) (f v : ForkSystem) (s0 : Ptr) : Prop where
  mem : v.table.mem = setByte (f.forkBegin s0).table.mem (f.forkPcb A s0) pcbPid f.table.nextId
  bitmap : v.allocBitmap = (f.forkUalloc s0).2
  regions : v.table.regions = f.table.regions
  pcbs : v.table.pcbs = f.table.pcbs
  currentPcb : v.table.currentPcb = f.table.currentPcb
  cache : ∃ slabs free, CacheRepr pcbCache f.slab slabs free ∧
    (CacheRepr pcbCache v.slab slabs free ∧ (f.forkPcb A s0 = null ∨ f.slab.HasFree) ∨
      f.forkPcb A s0 ≠ null ∧ ¬ f.slab.HasFree ∧ ∃ b, b ∉ slabs ∧
        CacheRepr pcbCache v.slab (b :: slabs) (Function.update free b (List.range pcbCache.num)))

/-- Without a PCB. -/
theorem atPcbFail_null (hs : ForkSound A f s0) (humem : (f.forkUalloc s0).1 ≠ 0) {got : Ptr × SlabState}
    (hget : slabGet A f.slab = some got) (hpcb : got.1 = null) :
    AtPcbFail A f ((f.forkUmem s0).allocPcb got) s0 := by
  obtain ⟨slabs, free, hrepr, -⟩ := hs.cache.inv
  have hgot : f.forkPcb A s0 = got.1 := forkPcb_eq humem hget
  have hrepr' : CacheRepr pcbCache got.2 slabs free :=
    hrepr.get_null (hget.trans (congrArg some (Prod.ext hpcb rfl)))
  refine ⟨?_, rfl, rfl, if_pos hpcb, rfl, slabs, free, hrepr, Or.inl ⟨hrepr', Or.inl (hgot.trans hpcb)⟩⟩
  rw [hgot]
  rfl

/-- With a PCB and no region record. -/
theorem atPcbFail_region (hs : ForkSound A f s0) (humem : (f.forkUalloc s0).1 ≠ 0) {got : Ptr × SlabState}
    (hget : slabGet A f.slab = some got) (hpcb : got.1 ≠ null) :
    ∃ v, AtPcbFail A f v s0 ∧
      (((f.forkUmem s0).allocPcb got).makeMemorySegment A).2.forkDmemSegFail A s0 got.1 (f.forkUalloc s0).1 =
        some (v.forkPcbFail A s0 (f.forkUalloc s0).1) := by
  obtain ⟨slabs, free, hrepr, -, hidle⟩ := hs.cache.thrifty
  have hgot : f.forkPcb A s0 = got.1 := forkPcb_eq humem hget
  have hmalloc := (A.malloc_spec (BitVec.ofNat 32 memoryRegionStructSize) got.2.heap).fail_or_ok
  obtain ⟨slab, hfree, hhas, hgrown⟩ := hrepr.give_back hidle A
    (show slabGet A f.slab = some (got.1, got.2) from hget) hpcb
    (u := (((f.forkUmem s0).allocPcb got).makeMemorySegment A).2.slab) rfl rfl hmalloc.1
  have hpcbs : (f.table.allocPcb got.1).pcbs.erase got.1 = f.table.pcbs := by
    rw [Kernel.allocPcb, if_neg hpcb, List.erase_cons_head]
  refine ⟨{ (f.forkUmem s0).allocPcb got with
    table := ((f.forkUmem s0).allocPcb got).table.freePcb got.1, slab := slab },
    ⟨?_, rfl, rfl, hpcbs, rfl, slabs, free, hrepr, ?_⟩, ?_⟩
  · rw [hgot]
    rfl
  · by_cases h : f.slab.HasFree
    · exact Or.inl ⟨hhas h, Or.inr h⟩
    · exact Or.inr ⟨hgot.trans_ne hpcb, h, hgrown h⟩
  · rw [forkDmemSegFail, hfree]
    rfl

namespace AtPcbFail

variable {v : ForkSystem}

theorem store (h : AtPcbFail A f v s0) :
    Alters [part (f.forkPcb A s0) pcbPid 1] (f.forkBegin s0).table.mem v.table.mem := by
  rw [h.mem]
  exact alters_setByte _ _ _ _

theorem storesApart (hs : ForkSound A f s0) : f.StoresApart [part (f.forkPcb A s0) pcbPid 1] :=
  List.forall_mem_singleton.2 ⟨pid_outside hs, fun _ hr => pid_apart hs hr (by decide)⟩

/-- The store is in the free object, or it is at address 164 and has to store what is there. -/
theorem spare_iff (h : AtPcbFail A f v s0) (hs : ForkSound A f s0) :
    Alters (spareSpans (f.forkPcb A s0)) (f.forkBegin s0).table.mem v.table.mem ↔
      (f.forkPcb A s0 = null → byte f.table.mem null pcbPid = f.table.nextId) := by
  by_cases hnull : f.forkPcb A s0 = null
  · have hbyte : byte (f.forkBegin s0).table.mem null pcbPid = byte f.table.mem null pcbPid := by
      refine (Kernel.aquireMemorySegment_alters _ _).byte (List.forall_mem_singleton.2 ?_)
      exact (hnull ▸ pid_apart hs hs.ptext (by decide)).symm
    rw [h.mem, hnull, spareSpans, if_pos rfl, alters_nil_setByte, hbyte]
    exact ⟨fun h _ => h, fun h => h rfl⟩
  · rw [spareSpans, if_neg hnull]
    refine iff_of_true ?_ fun h => absurd h hnull
    exact h.store.mono (List.forall_mem_singleton.2 (.part List.mem_cons_self (by decide)))

/-- The cache is as it was, or the heap has one block more. -/
theorem cache_iff (h : AtPcbFail A f v s0) :
    v.slab.heap.blocks.Perm f.slab.heap.blocks ∧
        (∃ slabs free, CacheRepr pcbCache f.slab slabs free ∧ CacheRepr pcbCache v.slab slabs free) ↔
      f.forkPcb A s0 = null ∨ f.slab.HasFree := by
  obtain ⟨slabs, free, hrepr, ⟨hrepr', hhas⟩ | ⟨hne, hnone, b, -, hrepr'⟩⟩ := h.cache
  · exact iff_of_true ⟨hrepr'.blocks.trans hrepr.blocks.symm, slabs, free, hrepr, hrepr'⟩ hhas
  · refine iff_of_false (fun ⟨hblocks, _⟩ => ?_) (not_or.2 ⟨hne, hnone⟩)
    have hlen := hblocks.length_eq
    rw [hrepr'.blocks.length_eq, hrepr.blocks.length_eq, List.length_map, List.length_map, List.length_cons] at hlen
    omega

/-- **`fork_pcb_fail` leaves nothing changed** in exactly these cases. -/
theorem undone_iff (h : AtPcbFail A f v s0) (hs : ForkSound A f s0) (humem : (f.forkUalloc s0).1 ≠ 0) :
    ForkUndone f (v.forkPcbFail A s0 (f.forkUalloc s0).1) s0 (f.forkPcb A s0) ↔
      f.TextHeld s0 ∧ f.UallocUndone s0 ∧
        if f.forkPcb A s0 = null then byte f.table.mem null pcbPid = f.table.nextId else f.slab.HasFree := by
  have hsize : v.dataSize s0 = f.dataSize s0 :=
    dataSize_kept hs h.store (List.forall_mem_singleton.2 ⟨pid_outside hs, pid_apart hs hs.pdata (by decide)⟩)
  have hshared := forkUallocFail_undone (A := A)
    (u := { v with allocBitmap := ufree (f.forkUalloc s0).1 (v.dataSize s0) v.allocBitmap }) hs h.store
    (storesApart hs) h.regions h.pcbs h.currentPcb
  rw [forkPcbFail, hshared, h.spare_iff hs, hsize, h.bitmap, ufree_undone hs humem, ← and_assoc
    (a := v.slab.heap.blocks.Perm _), h.cache_iff]
  refine and_congr_right fun _ => and_congr_right fun _ => ?_
  split
  · rename_i hnull
    exact ⟨fun hboth => hboth.2 hnull, fun hbyte => ⟨Or.inl hnull, fun _ => hbyte⟩⟩
  · rename_i hne
    exact ⟨fun hboth => hboth.1.resolve_left hne, fun hhas => ⟨Or.inr hhas, fun hnull => absurd hnull hne⟩⟩

/-- **It loses nothing**, whatever `ufree` does. -/
theorem kept (h : AtPcbFail A f v s0) (hs : ForkSound A f s0) (humem : (f.forkUalloc s0).1 ≠ 0)
    (htext : f.TextHeld s0) : ForkKept A f (v.forkPcbFail A s0 (f.forkUalloc s0).1) s0 := by
  have htable := forkUallocFail_kept (A := A)
    (u := { v with allocBitmap := ufree (f.forkUalloc s0).1 (v.dataSize s0) v.allocBitmap }) hs h.store
    (storesApart hs) h.regions h.pcbs h.currentPcb htext
  have hheld := forkUallocFail_held (A := A)
    (u := { v with allocBitmap := ufree (f.forkUalloc s0).1 (v.dataSize s0) v.allocBitmap }) hs h.store
    (storesApart hs) htext
  have hslab : (v.forkPcbFail A s0 (f.forkUalloc s0).1).slab = v.slab := by
    rw [forkPcbFail, hheld]
  refine ⟨?_, ?_⟩
  · rw [if_neg humem]
    exact htable
  rw [hslab]
  obtain ⟨slabs, free, hrepr, ⟨hrepr', -⟩ | ⟨-, hnone, b, hb, hrepr'⟩⟩ := h.cache
  · exact ⟨slabs, free, hrepr, Or.inl ⟨hrepr', hrepr'.blocks.trans hrepr.blocks.symm⟩⟩
  · have hall : ∀ b ∈ slabs, free b = [] := fun b hb => by
      by_contra hne
      exact hnone (hrepr.hasFree_iff.2 ⟨b, hb, hne⟩)
    exact ⟨slabs, free, hrepr, Or.inr ⟨hall, b, hb, hrepr', hrepr'.blocks.trans (hrepr.blocks.symm.cons _)⟩⟩

end AtPcbFail

/-- **The ways in which a fork fails.** -/
theorem ecallFork_failed (hs : ForkSound A f s0) (hfail : ¬ (f.forkGrants A s0 a2).Enough) :
    (f.forkUalloc s0).1 = 0 ∧ f.ecallFork A s0 a2 = some ((f.forkUmem s0).forkUallocFail A s0) ∨
      (f.forkUalloc s0).1 ≠ 0 ∧ ∃ v, AtPcbFail A f v s0 ∧
        f.ecallFork A s0 a2 = some (v.forkPcbFail A s0 (f.forkUalloc s0).1) := by
  by_cases humem : (f.forkUalloc s0).1 = 0
  · exact Or.inl ⟨humem, ecallFork_ualloc humem⟩
  obtain ⟨slabs, free, hrepr, hlive⟩ := hs.cache.inv
  obtain ⟨p, s', hget, -⟩ := slabGet_spec hrepr hlive A
  refine Or.inr ⟨humem, ?_⟩
  by_cases hpcb : p = null
  · exact ⟨_, atPcbFail_null hs humem hget hpcb, ecallFork_pcb humem hget hpcb⟩
  · have hregion : (((f.forkUmem s0).allocPcb (p, s')).makeMemorySegment A).1 = null := by
      rw [forkGrants_eq humem hget] at hfail
      exact not_not.1 fun hne => hfail ⟨humem, hpcb, hne⟩
    obtain ⟨v, hv, hrun⟩ := atPcbFail_region hs humem hget hpcb
    exact ⟨v, hv, (ecallFork_region humem hget hpcb hregion).trans hrun⟩

/-- **What a failed fork needs to leave nothing changed**: the use of the text region can be given back;
and if it has got user memory, `ufree` undoes `ualloc`, and the process id is at address 164 already when
there is no PCB, or the PCB was there without adding a slab. -/
def ForkUndoes (A : Allocator) (f : ForkSystem) (s0 : Ptr) : Prop :=
  f.TextHeld s0 ∧ ((f.forkUalloc s0).1 = 0 ∨ f.UallocUndone s0 ∧
    if f.forkPcb A s0 = null then byte f.table.mem null pcbPid = f.table.nextId else f.slab.HasFree)

end ForkSystem

/-- **A failed fork changes nothing** in exactly these cases. -/
theorem fork_failed_iff (A : Allocator) (f : ForkSystem) (s0 : Ptr) (a2 : Word) (hs : ForkSound A f s0)
    (hfail : ¬ (f.forkGrants A s0 a2).Enough) :
    ∃ t, f.ecallFork A s0 a2 = some t ∧ (ForkUndone f t s0 (f.forkPcb A s0) ↔ f.ForkUndoes A s0) := by
  rw [ForkUndoes]
  rcases ecallFork_failed hs hfail with ⟨humem, hrun⟩ | ⟨humem, v, hv, hrun⟩
  · refine ⟨_, hrun, ?_⟩
    obtain ⟨slabs, free, hrepr, -⟩ := hs.cache.inv
    have hkept : (f.forkUmem s0).allocBitmap = f.allocBitmap := by
      rw [forkUmem, forkUalloc]
      exact ualloc_null humem
    rw [forkUallocFail_undone (u := f.forkUmem s0) hs (Alters.refl [] _) (fun b hb => absurd hb List.not_mem_nil)
      rfl rfl rfl, and_iff_left (Or.inl humem)]
    exact and_iff_left ⟨hkept, List.Perm.refl _, ⟨slabs, free, hrepr, hrepr⟩, Alters.refl _ _⟩
  · refine ⟨_, hrun, ?_⟩
    rw [or_iff_right humem]
    exact hv.undone_iff hs humem

end RiscyOS
