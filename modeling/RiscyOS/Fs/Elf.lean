import RiscyOS.Fs.Open

/-!
# Loading a program

`kernel/fs/fs_elf.c`.  The loader opens the file, reads its header, seeks to the program header
table and reads the entries one after another; for each loadable segment it allocates memory, seeks
to the segment's contents and reads them.  All of it happens on one file and its one position.

The context is an allocation of 156 bytes.  Its file, its two headers and the parent directory of
its image are written through pointers into it, and so live in the world under their addresses; the
other fields are in `FsWorld.elfCtx`.
-/

set_option autoImplicit false

namespace RiscyOS

open Memory

/-! ## The layout of the context -/

/-- `&ctx->file`. -/
def elfFile (ctx : Ptr) : Ptr := ctx + 4

/-- `&ctx->header`. -/
def elfHeader (ctx : Ptr) : Ptr := ctx + 36

/-- `&ctx->pheader`. -/
def elfPheader (ctx : Ptr) : Ptr := ctx + 88

/-- `&ctx->tmp_image.parent_dir_cluster`. -/
def elfParentDirCluster (ctx : Ptr) : Ptr := ctx + 124

/-- `sizeof(Elf32_Ehdr)`. -/
def ehdrSize : Word := 52

/-- `sizeof(Elf32_Phdr)`. -/
def phdrSize : Word := 32

/-- Load the little-endian half word at `a`. -/
def load16 (m : Mem) (a : Word) : BitVec 16 := m (a + 1) ++ m a

/-- The fields of an `Elf32_Ehdr` that the loader looks at. -/
structure ElfEhdr where
  eIdent : List Byte
  eType : BitVec 16
  eMachine : BitVec 16
  eEntry : Word
  ePhoff : Word
  ePhnum : BitVec 16
  deriving DecidableEq, Repr

/-- The header at `a`. -/
def loadEhdr (m : Mem) (a : Word) : ElfEhdr where
  eIdent := (List.range 16).map fun i => m (a + BitVec.ofNat 32 i)
  eType := load16 m (a + 16)
  eMachine := load16 m (a + 18)
  eEntry := load32 m (a + 24)
  ePhoff := load32 m (a + 28)
  ePhnum := load16 m (a + 44)

/-- The program header at `a`. -/
def loadPhdr (m : Mem) (a : Word) : ElfPhdr where
  pType := load32 m a
  pOffset := load32 m (a + 4)
  pVaddr := load32 m (a + 8)
  pPaddr := load32 m (a + 12)
  pFilesz := load32 m (a + 16)
  pMemsz := load32 m (a + 20)
  pFlags := load32 m (a + 24)
  pAlign := load32 m (a + 28)

/-- `PT_LOAD`. -/
def ptLoad : Word := 1

/-- `PF_X`. -/
def pfX : Word := 1

/-! ## Helpers -/

/-- `memset`. -/
def memset (p : Ptr) (c : Byte) (n : Word) (m : Mem) : Mem := fun a =>
  if (a - p).toNat < n.toNat then c else m a

/-- `ualloc`. -/
def FsWorld.ualloc (w : FsWorld) : Ptr × FsWorld :=
  (w.uallocs 0, { w with uallocs := fun n => w.uallocs (n + 1) })

/-- `kmalloc` for a `memory_region_t`. -/
def FsWorld.kmallocRegion (w : FsWorld) : Ptr × FsWorld :=
  (w.kmallocRegions 0, { w with kmallocRegions := fun n => w.kmallocRegions (n + 1) })

/-- `release_memory_segment`.  The memory of a region without users goes back to the user
allocator, and its record to the kernel heap. -/
def releaseMemorySegment (p : Ptr) (w : FsWorld) : FsWorld :=
  if p = null then w else
    let t0 := (w.region p).referenceCount - 1
    if t0 = 0 then w
    else { w with region := Function.update w.region p { w.region p with referenceCount := t0 } }

/-- `true`, as `include/types.h` has it. -/
def cTrue : Word := 1

/-- `false`, as `include/types.h` has it. -/
def cFalse : Word := 1

/-- `elf_validate_header`. -/
def elfValidateHeader (hdr : ElfEhdr) : Word :=
  if hdr.eIdent[0]? ≠ some 0x7F then cFalse
  else if hdr.eIdent[1]? ≠ some 0x45 then cFalse
  else if hdr.eIdent[2]? ≠ some 0x4C then cFalse
  else if hdr.eIdent[3]? ≠ some 0x46 then cFalse
  else if hdr.eIdent[4]? ≠ some 1 then cFalse
  else if hdr.eIdent[5]? ≠ some 1 then cFalse
  else if hdr.eMachine ≠ 0xF3 then cFalse
  else if hdr.eType ≠ 2 then cFalse
  else cTrue

/-! ## The state machine -/

/-- `elf_load_submit`. -/
def elfLoadSubmit (d : FatDriver) (path : List Byte) (pcbToFill : Ptr) (w : FsWorld) :
    FsWorld × FsAction :=
  let ctx := w.kmalloc.1
  let w := w.kmalloc.2
  let w := { w with
    mem := memset (elfHeader ctx) 0 (ehdrSize + phdrSize) w.mem
    cell := Function.update w.cell (elfParentDirCluster ctx) 0 }
  let w := w.setFile (elfFile ctx) ⟨0, 0, 0, 0, 0, 0, 0⟩
  let w := w.setElfCtx ctx ⟨.opening, 0, ⟨null, null, 0, 0, 0⟩, pcbToFill, null, []⟩
  fsOpenSubmitWithDirParent d path (elfFile ctx) 0 (some .elfStep) ctx (elfParentDirCluster ctx) w

/-- `elf_read_next_program_header`. -/
def elfReadNextProgramHeader (d : FatDriver) (ctx : Ptr) (w : FsWorld) : FsWorld × FsAction :=
  let c := w.elfCtx ctx
  let c : ElfCtx := { c with currentSeg := c.currentSeg + 1 }
  if c.currentSeg.toInt < (loadEhdr w.mem (elfHeader ctx)).ePhnum.toNat then
    fsReadSubmit d (elfFile ctx) (elfPheader ctx) phdrSize .elfStep ctx
      (w.setElfCtx ctx { c with state := .readPheader })
  else fsCloseSubmit .elfStep ctx (w.setElfCtx ctx { c with state := .closing })

/-- `elf_finish`. -/
def elfFinish (ctx : Ptr) (w : FsWorld) : FsWorld × FsAction :=
  let c := w.elfCtx ctx
  if c.state = .error then (unblockProcess c.pcb w, .stop) else
    let image := c.tmpImage
    let setPcb (w : FsWorld) (f : Pcb → Pcb) : FsWorld :=
      { w with pcb := Function.update w.pcb c.pcb (f (w.pcb c.pcb)) }
    let w := setPcb w fun p =>
      { p with mscratch := image.pdataStart + (w.region image.ptextMemoryRegion).regionSize }
    let w := releaseMemorySegment (w.pcb c.pcb).ptextMemoryRegion w
    let w := releaseMemorySegment (w.pcb c.pcb).pdataMemoryRegion w
    let w := setPcb w fun p =>
      { p with
        brk := image.heapStart
        heapStart := image.heapStart
        mepc := image.mepc
        pdataMemoryRegion := image.pdataMemoryRegion
        ptextMemoryRegion := image.ptextMemoryRegion
        pdataStart := image.pdataStart
        parentDirCluster := w.cell (elfParentDirCluster ctx) }
    (unblockProcess c.pcb w, .stop)

/-- The segment's part of the process image. -/
def imageSegment (image : ProcessImage) (hdr : ElfEhdr) (ph : ElfPhdr) (region : Ptr) :
    ProcessImage :=
  if ph.pFlags &&& pfX ≠ 0 then { image with ptextMemoryRegion := region, mepc := hdr.eEntry }
  else { image with
    pdataMemoryRegion := region
    pdataStart := ph.pVaddr
    heapStart := (ph.pVaddr + ph.pMemsz + 15) &&& ~~~15 }

/-- `elf_step`. -/
def elfStep (d : FatDriver) (ctx : Ptr) (status : Int) (w : FsWorld) : FsWorld × FsAction :=
  let c := w.elfCtx ctx
  if status ≠ 0 then elfFinish ctx (w.setElfCtx ctx { c with state := .error }) else
    match c.state with
    | .opening =>
      fsReadSubmit d (elfFile ctx) (elfHeader ctx) ehdrSize .elfStep ctx
        (w.setElfCtx ctx { c with state := .readingHeader })
    | .readingHeader =>
      let hdr := loadEhdr w.mem (elfHeader ctx)
      if elfValidateHeader hdr = 0 then elfFinish ctx (w.setElfCtx ctx { c with state := .error })
      else
        fsSeekWhence d (elfFile ctx) hdr.ePhoff (some .set) .elfStep ctx
          (w.setElfCtx ctx { c with currentSeg := 0, state := .loadPheader })
    | .loadPheader =>
      fsReadSubmit d (elfFile ctx) (elfPheader ctx) phdrSize .elfStep ctx
        (w.setElfCtx ctx { c with state := .readPheader })
    | .readPheader =>
      let hdr := loadEhdr w.mem (elfHeader ctx)
      let ph := loadPhdr w.mem (elfPheader ctx)
      let c : ElfCtx := { c with processed := c.processed ++ [ph] }
      let w := w.setElfCtx ctx c
      if ph.pType ≠ ptLoad then elfReadNextProgramHeader d ctx w else
        let region := w.kmallocRegion.1
        let w := w.kmallocRegion.2
        if region = null then elfFinish ctx (w.setElfCtx ctx { c with state := .error }) else
          let mem := w.ualloc.1
          let w := w.ualloc.2
          if mem = null then elfFinish ctx (w.setElfCtx ctx { c with state := .error }) else
            let w := { w with
              mem := memset mem 0 ph.pMemsz w.mem
              region := Function.update w.region region ⟨mem, ph.pMemsz, 1⟩ }
            fsSeekWhence d (elfFile ctx) ph.pOffset (some .set) .elfStep ctx
              (w.setElfCtx ctx { c with
                segBuf := mem
                tmpImage := imageSegment c.tmpImage hdr ph region
                state := .seekPcontent })
    | .seekPcontent =>
      let ph := loadPhdr w.mem (elfPheader ctx)
      fsReadSubmit d (elfFile ctx) c.segBuf ph.pFilesz .elfStep ctx
        (w.setElfCtx ctx { c with state := .loadPcontent })
    | .loadPcontent =>
      elfReadNextProgramHeader d ctx (w.setElfCtx ctx { c with segBuf := null })
    | .closing => elfFinish ctx (w.setElfCtx ctx { c with state := .done })
    | .done | .error => (w, .stop)

/-! ## Which files are refused -/

/-- The header of a file that the loader supports: the four magic bytes, 32 bits, little-endian, for
this machine, and executable. -/
structure ElfEhdr.Supported (hdr : ElfEhdr) : Prop where
  magic : hdr.eIdent.take 4 = [0x7F, 0x45, 0x4C, 0x46]
  class32 : hdr.eIdent[4]? = some 1
  dataLsb : hdr.eIdent[5]? = some 1
  machine : hdr.eMachine = 0xF3
  exec : hdr.eType = 2

/-- **No header is refused**, because `false` is `1` as well. -/
theorem elfValidateHeader_eq (hdr : ElfEhdr) : elfValidateHeader hdr = 1 := by
  simp only [elfValidateHeader, cFalse, cTrue, ite_self]

/-- The header in `ctx` is judged by what it says: it is accepted exactly when the file is supported,
and the load of any other file ends there in `ELF_ERROR`. -/
def Validates (d : FatDriver) (ctx : Ptr) (w : FsWorld) : Prop :=
  (elfValidateHeader (loadEhdr w.mem (elfHeader ctx)) ≠ 0 ↔
      (loadEhdr w.mem (elfHeader ctx)).Supported) ∧
    ((w.elfCtx ctx).state = .readingHeader → ¬ (loadEhdr w.mem (elfHeader ctx)).Supported →
      elfStep d ctx 0 w = elfFinish ctx (w.setElfCtx ctx { w.elfCtx ctx with state := .error }))

/-- **A header is judged rightly** exactly when it is one to be accepted. -/
theorem elfValidateHeader_iff (d : FatDriver) (ctx : Ptr) (w : FsWorld) :
    Validates d ctx w ↔ (loadEhdr w.mem (elfHeader ctx)).Supported := by
  have hvalid : elfValidateHeader (loadEhdr w.mem (elfHeader ctx)) ≠ 0 := by
    rw [elfValidateHeader_eq]
    decide
  constructor
  · exact fun h => h.1.1 hvalid
  · exact fun h => ⟨iff_of_true hvalid h, fun _ hno => absurd h hno⟩

/-- A header of 52 zero bytes is accepted. -/
theorem elfValidateHeader_accepts_zeros : elfValidateHeader (loadEhdr (fun _ => 0) 0) ≠ 0 ∧
    ¬ (loadEhdr (fun _ => 0) 0).Supported := by
  refine ⟨by decide, fun h => ?_⟩
  exact absurd h.machine (by decide)

/-! ## The code of the file system -/

/-- Every step function, with its context.  A client's callback is not part of the file system. -/
def fsCode (d : FatDriver) : Callback.Code Sector FsWorld Word FsClosure :=
  fun rx k status w =>
    match k.1 with
    | .fsOpenStep => fsOpenStep d rx k.2 status w
    | .fsReadStep => fsReadStep d rx k.2 status w
    | .fsSeekStep => fsSeekStep d rx k.2 status w
    | .elfStep => elfStep d k.2 status w
    | .client => (w, .stop)

theorem isFinal_client (d : FatDriver) (ctx : Ptr) :
    Callback.IsFinal (fsCode d) (FsCallback.client, ctx) := fun _ _ _ => rfl

end RiscyOS
