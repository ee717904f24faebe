import RiscyOS.Fs.World

/-!
# Seeking and reading

`kernel/fs/fs_seek.c`, `kernel/fs/fs_read.c` and `kernel/fs/fs_close.c`, function by function.  A
seek that stays in its cluster is done at once; otherwise it follows the allocation table, one
sector of it per hop.  A read copies what it wants of the current sector, seeks forward by as much,
and goes on from there; what it takes from its last sector is added to `current_byte` alone.
-/

set_option autoImplicit false

namespace RiscyOS

open Memory

/-! ## `fs_seek.c` -/

/-- `seek_decompose`. -/
def seekDecompose (d : FatDriver) (offset : Word) : SeekPosition :=
  let bytesPerSector : Word := 512
  let sectorsPerClus : Word := d.sectorsPerCluster.setWidth 32
  let bytesPerCluster := bytesPerSector * sectorsPerClus
  let offInClus := offset % bytesPerCluster
  { clusterIndex := offset / bytesPerCluster
    sectorInCluster := (offInClus / bytesPerSector).setWidth 8
    byteInSector := (offInClus % bytesPerSector).setWidth 16 }

/-- `fs_seek_submit`. -/
def fsSeekSubmit (d : FatDriver) (file : Ptr) (targetOffset : Word) (onComplete : FsCallback)
    (callerCtx : Ptr) (w : FsWorld) : FsWorld × FsAction :=
  let f := w.file file
  if f.fileSize < targetOffset then (w, .call (onComplete, callerCtx) (-1)) else
    let target := seekDecompose d targetOffset
    let current := seekDecompose d f.fileOffset
    -- forward from where the file is, backward from its first cluster
    let forward := current.clusterIndex ≤ target.clusterIndex
    let startCluster := if forward then f.currentCluster else f.firstCluster
    let startClusterIndex := if forward then current.clusterIndex else 0
    let clustersToSkip := target.clusterIndex - startClusterIndex
    if clustersToSkip = 0 then
      (w.setFile file { f with
        currentSector := target.sectorInCluster.setWidth 32
        currentByte := target.byteInSector.setWidth 32
        fileOffset := targetOffset }, .call (onComplete, callerCtx) 0)
    else
      let ctx := w.kmalloc.1
      (w.kmalloc.2.setSeekCtx ctx ⟨.walkFat, file, startCluster, clustersToSkip, target,
        targetOffset, onComplete, callerCtx⟩,
        .post (d.fatCalcualteLba startCluster) (.fsSeekStep, ctx))

/-- `seek_whence`. -/
inductive SeekWhence
  | set
  | cur
  | fromEnd
  deriving DecidableEq, Repr

/-- The target a `whence` names; `none` is any other value of the parameter. -/
def seekTarget (f : File) (offset : Word) : Option SeekWhence → Option Word
  | some .set => some offset
  | some .cur => some (f.fileOffset + offset)
  | some .fromEnd => some (f.fileSize + offset)
  | none => none

/-- `fs_seek_whence`. -/
def fsSeekWhence (d : FatDriver) (file : Ptr) (offset : Word) (whence : Option SeekWhence)
    (onComplete : FsCallback) (ctx : Ptr) (w : FsWorld) : FsWorld × FsAction :=
  match seekTarget (w.file file) offset whence with
  | some target => fsSeekSubmit d file target onComplete ctx w
  | none => (w, .call (onComplete, ctx) (-1))

/-- `fs_seek_finish`. -/
def fsSeekFinish (ctx : Ptr) (w : FsWorld) : FsWorld × FsAction :=
  let c := w.seekCtx ctx
  let ok := if c.state = .done then 0 else -1
  (w, .call (c.onComplete, c.callerCtx) ok)

/-- `fs_seek_step`. -/
def fsSeekStep (d : FatDriver) (rx : Sector) (ctx : Ptr) (status : Int) (w : FsWorld) :
    FsWorld × FsAction :=
  let c := w.seekCtx ctx
  if status ≠ 0 then fsSeekFinish ctx (w.setSeekCtx ctx { c with state := .error }) else
    let next := d.getNextCluster rx c.currentCluster
    if EndOfChain next then fsSeekFinish ctx (w.setSeekCtx ctx { c with state := .error }) else
      let c := { c with currentCluster := next, clustersRemaining := c.clustersRemaining - 1 }
      if c.clustersRemaining = 0 then
        let w := w.setFile c.file { w.file c.file with
          currentCluster := c.currentCluster
          currentSector := c.target.sectorInCluster.setWidth 32
          currentByte := c.target.byteInSector.setWidth 32
          fileOffset := c.targetOffset }
        fsSeekFinish ctx (w.setSeekCtx ctx { c with state := .done })
      else (w.setSeekCtx ctx c, .post (d.fatCalcualteLba c.currentCluster) (.fsSeekStep, ctx))

/-! ## `fs_read.c` -/

/-- `fs_read_post_io`. -/
def fsReadPostIo (context : Ptr) (lba : Word) (nextState : FsReadState) (w : FsWorld) :
    FsWorld × FsAction :=
  (w.setReadCtx context { w.readCtx context with state := nextState },
    .post lba (.fsReadStep, context))

/-- The sector a file is at. -/
def fileLba (d : FatDriver) (f : File) : Word := d.clusterToLba f.currentCluster + f.currentSector

/-- `fs_read_submit`. -/
def fsReadSubmit (d : FatDriver) (file buffer : Ptr) (bytes : Word) (callback : FsCallback)
    (ctx : Ptr) (w : FsWorld) : FsWorld × FsAction :=
  let context := w.kmalloc.1
  let w := w.kmalloc.2
  let w := w.setReadCtx context { w.readCtx context with
    callback := callback, ctx := ctx, file := file, buffer := buffer, bytesRemaining := bytes }
  fsReadPostIo context (fileLba d (w.file file)) .copyContents w

/-- `fs_read_finish`. -/
def fsReadFinish (ctx : Ptr) (w : FsWorld) : FsWorld × FsAction :=
  let c := w.readCtx ctx
  let status := if c.state = .done then 0 else 1
  (w, .call (c.callback, c.ctx) status)

/-- The loop that copies `n` bytes of the sector, from `currentByte` on, to `dst`. -/
def copySector (sector : Sector) (currentByte : Word) (dst : Ptr) : Nat → Mem → Mem
  | 0, m => m
  | n + 1, m => store8 (copySector sector currentByte dst n m) (dst + BitVec.ofNat 32 n)
      (sector (currentByte + BitVec.ofNat 32 n).toNat)

/-- `fs_read_step`. -/
def fsReadStep (d : FatDriver) (rx : Sector) (ctx : Ptr) (status : Int) (w : FsWorld) :
    FsWorld × FsAction :=
  let c := w.readCtx ctx
  if status ≠ 0 then fsReadFinish ctx (w.setReadCtx ctx { c with state := .error }) else
    match c.state with
    | .loadContents => fsReadPostIo ctx (fileLba d (w.file c.file)) .copyContents w
    | .copyContents =>
      let f := w.file c.file
      let bytesToCopy : Word := if 512 ≤ f.currentByte + c.bytesRemaining then 512 - f.currentByte
        else c.bytesRemaining
      let w := { w with mem := copySector rx f.currentByte c.buffer bytesToCopy.toInt.toNat w.mem }
      let c : FsReadCtx := { c with
        buffer := c.buffer + bytesToCopy
        bytesRemaining := c.bytesRemaining - bytesToCopy }
      if c.bytesRemaining = 0 then
        let w := w.setFile c.file { f with currentByte := f.currentByte + bytesToCopy }
        fsReadFinish ctx (w.setReadCtx ctx { c with state := .done })
      else
        fsSeekWhence d c.file bytesToCopy (some .cur) .fsReadStep ctx
          (w.setReadCtx ctx { c with state := .loadContents })
    | .seekRead | .done | .error => (w, .stop)

/-! ## `fs_close.c` -/

/-- `fs_close_submit`. -/
def fsCloseSubmit (callback : FsCallback) (ctx : Ptr) (w : FsWorld) : FsWorld × FsAction :=
  (w, .call (callback, ctx) 0)

end RiscyOS
