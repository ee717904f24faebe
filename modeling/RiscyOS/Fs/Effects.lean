import RiscyOS.Fs.Elf
import RiscyOS.Lib.Ledger

/-!
# What the file system does to the heap, and to the card

`RiscyOS.Fs.Files`, `RiscyOS.Fs.Open` and `RiscyOS.Fs.Elf` say what each function of `kernel/fs/`
does to its data and what it does last.  They leave out `kfree`, which leaves the contents of what it
frees alone, and they take `fat_calcualte_lba` for a function that only computes.  Here is what they
leave out.  For every one of those functions, under its name with `Effects` added and with the same
branches, there is the list of what it does on the way, in order: what it takes from `kmalloc` and
gives to `kfree`, when it looks at its context, when it invokes the completion callback of its
operation, and for which clusters it calls `fat_calcualte_lba`.

The request that a function submits, last of all, is not among these; it belongs to the scheduler
from then on.
-/

set_option autoImplicit false

namespace RiscyOS

open Memory

/-- What a block of the kernel heap is for. -/
inductive BlockKind
  /-- The context of the given step function. -/
  | context (k : FsCallback)
  | request
  | region
  | file
  deriving DecidableEq, Repr

/-- What a function does on the way. -/
inductive FsEffect
  | heap (op : Ledger.Op BlockKind Ptr)
  /-- The completion callback of the operation is invoked. -/
  | complete (k : FsClosure)
  /-- `fat_calcualte_lba` is called. -/
  | fatLba (cluster : Word)
  deriving DecidableEq, Repr

namespace FsEffect

/-- `kmalloc` for the context of a step function. -/
abbrev allocCtx (k : FsCallback) (p : Ptr) : FsEffect := .heap (.alloc (.context k) p)

/-- `kfree`. -/
abbrev free (p : Ptr) : FsEffect := .heap (.free p)

/-- Fields of the context at `p` are read or written. -/
abbrev access (p : Ptr) : FsEffect := .heap (.access p)

end FsEffect

open FsEffect

/-! ## `fs_seek.c` -/

/-- Where `fs_seek_submit` starts its walk, and how far it goes. -/
def seekStart (d : FatDriver) (f : File) (targetOffset : Word) : Word × Word :=
  let target := seekDecompose d targetOffset
  let current := seekDecompose d f.fileOffset
  if current.clusterIndex ≤ target.clusterIndex then
    (f.currentCluster, target.clusterIndex - current.clusterIndex)
  else (f.firstCluster, target.clusterIndex)

/-- `fs_seek_submit`. -/
def fsSeekSubmitEffects (d : FatDriver) (file : Ptr) (targetOffset : Word) (w : FsWorld) :
    List FsEffect :=
  let f := w.file file
  if f.fileSize < targetOffset then [] else
    let (startCluster, clustersToSkip) := seekStart d f targetOffset
    if clustersToSkip = 0 then [] else
      let ctx := w.kmalloc.1
      [allocCtx .fsSeekStep ctx, access ctx, fatLba startCluster]

/-- `fs_seek_whence`. -/
def fsSeekWhenceEffects (d : FatDriver) (file : Ptr) (offset : Word) (whence : Option SeekWhence)
    (w : FsWorld) : List FsEffect :=
  match seekTarget (w.file file) offset whence with
  | some target => fsSeekSubmitEffects d file target w
  | none => []

/-- `fs_seek_finish`. -/
def fsSeekFinishEffects (ctx : Ptr) : List FsEffect :=
  [access ctx, free ctx, complete (.fsSeekStep, ctx)]

/-- `fs_seek_step`. -/
def fsSeekStepEffects (d : FatDriver) (rx : Sector) (ctx : Ptr) (status : Int) (w : FsWorld) :
    List FsEffect :=
  let c := w.seekCtx ctx
  if status ≠ 0 then access ctx :: fsSeekFinishEffects ctx else
    let next := d.getNextCluster rx c.currentCluster
    if EndOfChain next then access ctx :: fsSeekFinishEffects ctx
    else if c.clustersRemaining - 1 = 0 then access ctx :: fsSeekFinishEffects ctx
    else [access ctx, fatLba next]

/-! ## `fs_read.c` and `fs_close.c` -/

/-- `fs_read_submit`. -/
def fsReadSubmitEffects (w : FsWorld) : List FsEffect :=
  let context := w.kmalloc.1
  [allocCtx .fsReadStep context, access context]

/-- `fs_read_finish`. -/
def fsReadFinishEffects (ctx : Ptr) : List FsEffect :=
  [access ctx, free ctx, complete (.fsReadStep, ctx)]

/-- `fs_read_step`. -/
def fsReadStepEffects (d : FatDriver) (ctx : Ptr) (status : Int) (w : FsWorld) : List FsEffect :=
  let c := w.readCtx ctx
  if status ≠ 0 then access ctx :: fsReadFinishEffects ctx else
    match c.state with
    | .loadContents => [access ctx]
    | .copyContents =>
      let f := w.file c.file
      let bytesToCopy : Word := if 512 ≤ f.currentByte + c.bytesRemaining then 512 - f.currentByte
        else c.bytesRemaining
      if c.bytesRemaining - bytesToCopy = 0 then access ctx :: fsReadFinishEffects ctx
      else access ctx :: fsSeekWhenceEffects d c.file bytesToCopy (some .cur) w
    | .seekRead | .done | .error => [access ctx]

/-- `fs_close_submit`. -/
def fsCloseSubmitEffects (file : Ptr) : List FsEffect := [free file]

/-! ## `fs_open.c` -/

/-- `fs_open_submit_with_dir_parent`. -/
def fsOpenSubmitEffects (w : FsWorld) : List FsEffect :=
  let ctx := w.kmalloc.1
  [allocCtx .fsOpenStep ctx, access ctx]

/-- `fs_open_finish`.  The context is freed first, and looked at afterwards; and freed once more
before the callback. -/
def fsOpenFinishEffects (ctx : Ptr) (w : FsWorld) : List FsEffect :=
  let c := w.openCtx ctx
  [access ctx, free ctx, access ctx] ++
    if c.procId ≠ 0 then []
    else
      match c.onComplete with
      | some _ => [free ctx, complete (.fsOpenStep, ctx)]
      | none => []

/-- `fs_open_step`. -/
def fsOpenStepEffects (d : FatDriver) (rx : Sector) (ctx : Ptr) (status : Int) (w : FsWorld) :
    List FsEffect :=
  let c := w.openCtx ctx
  if status ≠ 0 then access ctx :: fsOpenFinishEffects ctx w else
    match c.state with
    | .parseDirSector =>
      match scanDir rx c.walker.component83 entriesPerSector 0 with
      | .endOfDir => access ctx :: fsOpenFinishEffects ctx w
      | .found _ =>
        if !pathWalkerHasNext c.walker then access ctx :: fsOpenFinishEffects ctx w
        else [access ctx]
      | .noMatch =>
        if d.sectorsPerCluster ≤ c.sectorInCluster + 1 then [access ctx, fatLba c.currentCluster]
        else [access ctx]
    | .processFat =>
      if EndOfChain (d.getNextCluster rx c.currentCluster) then
        access ctx :: fsOpenFinishEffects ctx w
      else [access ctx]
    | .done | .notFound | .error => [access ctx]

/-! ## `fs_elf.c` -/

/-- `elf_load_submit`. -/
def elfLoadSubmitEffects (w : FsWorld) : List FsEffect :=
  let ctx := w.kmalloc.1
  [allocCtx .elfStep ctx, access ctx] ++ fsOpenSubmitEffects w.kmalloc.2

/-- `elf_read_next_program_header`. -/
def elfReadNextProgramHeaderEffects (ctx : Ptr) (w : FsWorld) : List FsEffect :=
  let c := w.elfCtx ctx
  if (c.currentSeg + 1).toInt < (loadEhdr w.mem (elfHeader ctx)).ePhnum.toNat then
    access ctx :: fsReadSubmitEffects w
  else access ctx :: fsCloseSubmitEffects (elfFile ctx)

/-- `release_memory_segment`. -/
def releaseMemorySegmentEffects (p : Ptr) (w : FsWorld) : List FsEffect :=
  if p = null then [] else if (w.region p).referenceCount - 1 = 0 then [access p, free p]
  else [access p]

/-- `elf_finish`. -/
def elfFinishEffects (ctx : Ptr) (w : FsWorld) : List FsEffect :=
  let c := w.elfCtx ctx
  access ctx ::
    (if c.state = .error then
      (if c.tmpImage.ptextMemoryRegion ≠ null then [free c.tmpImage.ptextMemoryRegion] else []) ++
        (if c.tmpImage.pdataMemoryRegion ≠ null then [free c.tmpImage.pdataMemoryRegion] else [])
    else
      let p := w.pcb c.pcb
      releaseMemorySegmentEffects p.ptextMemoryRegion w ++
        releaseMemorySegmentEffects p.pdataMemoryRegion (releaseMemorySegment p.ptextMemoryRegion w)) ++
    [access ctx, free ctx]

/-- `elf_step`. -/
def elfStepEffects (d : FatDriver) (ctx : Ptr) (status : Int) (w : FsWorld) : List FsEffect :=
  let c := w.elfCtx ctx
  let failed := w.setElfCtx ctx { c with state := .error }
  if status ≠ 0 then access ctx :: elfFinishEffects ctx failed else
    match c.state with
    | .opening | .loadPheader | .seekPcontent => access ctx :: fsReadSubmitEffects w
    | .readingHeader =>
      let hdr := loadEhdr w.mem (elfHeader ctx)
      if elfValidateHeader hdr = 0 then access ctx :: elfFinishEffects ctx failed
      else access ctx :: fsSeekWhenceEffects d (elfFile ctx) hdr.ePhoff (some .set) w
    | .readPheader =>
      let ph := loadPhdr w.mem (elfPheader ctx)
      if ph.pType ≠ ptLoad then access ctx :: elfReadNextProgramHeaderEffects ctx w else
        let region := w.kmallocRegion.1
        if region = null then access ctx :: elfFinishEffects ctx failed else
          [access ctx, .heap (.alloc .region region)] ++
            if w.ualloc.1 = null then free region :: elfFinishEffects ctx failed
            else access ctx :: fsSeekWhenceEffects d (elfFile ctx) ph.pOffset (some .set) w
    | .loadPcontent => access ctx :: elfReadNextProgramHeaderEffects ctx w
    | .closing =>
      access ctx :: elfFinishEffects ctx (w.setElfCtx ctx { c with state := .done })
    | .done | .error => [access ctx]

/-! ## All of it -/

/-- What a step function does on the way. -/
def fsCodeEffects (d : FatDriver) (rx : Sector) (k : FsClosure) (status : Int) (w : FsWorld) :
    List FsEffect :=
  match k.1 with
  | .fsOpenStep => fsOpenStepEffects d rx k.2 status w
  | .fsReadStep => fsReadStepEffects d k.2 status w
  | .fsSeekStep => fsSeekStepEffects d rx k.2 status w
  | .elfStep => elfStepEffects d k.2 status w
  | .client => []

end RiscyOS
