import RiscyOS.Fs.Files

/-!
# Opening a file by its path

`kernel/fs/fs_open.c`.  The path is walked component by component.  For each, the directory reached
so far is read a sector at a time, and its entries are compared with the component's packed name
until one matches, the directory ends, or its chain of clusters does.  `pathWalkerAdvance` moves to
the next component, and says that there is none after it by an offset of `-1`.
-/

set_option autoImplicit false

namespace RiscyOS

open Memory

/-! ## Names -/

/-- The slash. -/
def slash : Byte := 0x2F

/-- The dot. -/
def dot : Byte := 0x2E

/-- `toupper`. -/
def toupper (chr : Byte) : Byte := if 0x61 ≤ chr ∧ chr ≤ 0x7A then chr - 32 else chr

/-- The characters `fat_valid_char` rejects by name. -/
def fatInvalidChars : List Byte :=
  [0x22, 0x2A, 0x2B, 0x2C, 0x2F, 0x3A, 0x3B, 0x3C, 0x3D, 0x3E, 0x3F, 0x5B, 0x5C, 0x5D, 0x7C]

/-- `fat_valid_char`. -/
def fatValidChar (c : Byte) : Bool := !(decide (c < 0x20) || fatInvalidChars.contains c)

/-- `get_next_path_component`: the component and what is left, or `none` at the end of the path. -/
def getNextPathComponent (path : List Byte) : Option (List Byte × List Byte) :=
  let path := if path.head? = some slash then path.tail else path
  if path = [] then none
  else some (path.takeWhile (· ≠ slash), path.dropWhile (· ≠ slash))

/-- Where `make_fat_83_name` cuts a name in two: at the first dot, the first character apart. -/
def splitExt : List Byte → List Byte × List Byte
  | [] => ([], [])
  | c :: rest => (c :: rest.takeWhile (· ≠ dot), (rest.dropWhile (· ≠ dot)).tail)

/-- `n` characters, in upper case, padded with blanks. -/
def padUpper (n : Nat) (s : List Byte) : List Byte :=
  ((s.take n).map toupper).rightpad n 0x20

/-- `make_fat_83_name`: what it leaves in its output.  A character it rejects leaves blanks. -/
def makeFat83Name (input : List Byte) : List Byte :=
  let parts := splitExt input
  if parts.1.all fatValidChar && parts.2.all fatValidChar then
    padUpper 8 parts.1 ++ padUpper 3 parts.2
  else List.replicate 11 0x20

/-! ## The path walker -/

/-- `path_walker_advance`.  A component that ends the path is read but not packed. -/
def pathWalkerAdvance (p : PathWalker) : PathWalker :=
  match getNextPathComponent (p.fullPath.drop p.offset.toNat) with
  | none => { p with offset := -1 }
  | some (component, next) =>
    if next = [] then { p with component := component, offset := -1 }
    else { p with
      component := component
      offset := p.fullPath.length - next.length
      component83 := makeFat83Name component }

/-- `path_walker_has_next`. -/
def pathWalkerHasNext (p : PathWalker) : Bool := decide (0 ≤ p.offset)

/-! ## Directory sectors -/

/-- A two-byte field of the sector. -/
def sectorHalf (s : Sector) (i : Nat) : BitVec 16 := s (i + 1) ++ s i

/-- A four-byte field of the sector. -/
def sectorWord (s : Sector) (i : Nat) : Word := s (i + 3) ++ s (i + 2) ++ s (i + 1) ++ s i

/-- A directory entry as far as it is looked at. -/
structure DirEntry where
  name : List Byte
  attr : Byte
  cluster : Word
  fileSize : Word
  deriving DecidableEq, Repr

/-- Entry `i` of a directory sector. -/
def dirEntry (s : Sector) (i : Nat) : DirEntry where
  name := (List.range 11).map fun j => s (32 * i + j)
  attr := s (32 * i + 11)
  cluster := ((sectorHalf s (32 * i + 20)).setWidth 32 <<< 16) |||
    (sectorHalf s (32 * i + 26)).setWidth 32
  fileSize := sectorWord s (32 * i + 28)

/-- What looking through a directory sector ends with. -/
inductive DirScan
  | endOfDir
  | found (e : DirEntry)
  | noMatch
  deriving DecidableEq, Repr

/-- The loop over the entries of a sector, `n` of them to go from entry `i`. -/
def scanDir (s : Sector) (component83 : List Byte) : Nat → Nat → DirScan
  | 0, _ => .noMatch
  | n + 1, i =>
    let e := dirEntry s i
    if s (32 * i) = 0 then .endOfDir
    else if s (32 * i) = 0xE5 then scanDir s component83 n (i + 1)
    else if e.attr &&& 0x0F = 0x0F then scanDir s component83 n (i + 1)
    else if e.name ≠ component83 then scanDir s component83 n (i + 1)
    else .found e

/-- `n` in `fs_open_step`. -/
def entriesPerSector : Nat := 512 / 32

/-! ## `fs_open_submit` and `fs_open_step` -/

/-- `unblock_process`. -/
def unblockProcess (pcb : Ptr) (w : FsWorld) : FsWorld :=
  { w with pcb := Function.update w.pcb pcb { w.pcb pcb with pstatus := stateReady } }

/-- `fs_open_post_io`. -/
def fsOpenPostIo (ctx : Ptr) (lba : Word) (nextState : FsOpenState) (w : FsWorld) :
    FsWorld × FsAction :=
  (w.setOpenCtx ctx { w.openCtx ctx with state := nextState, currentLba := lba },
    .post lba (.fsOpenStep, ctx))

/-- A store through `parent_cluster_storage`, if there is one. -/
def storeParentCluster (storage : Ptr) (cluster : Word) (w : FsWorld) : FsWorld :=
  if storage ≠ null then { w with cell := Function.update w.cell storage cluster } else w

/-- It changes nothing else. -/
theorem storeParentCluster_eq (storage : Ptr) (cluster : Word) (w : FsWorld) :
    storeParentCluster storage cluster w =
      { w with cell := (storeParentCluster storage cluster w).cell } := by
  rw [storeParentCluster]
  split <;> rfl

/-- `set_initial_dir`. -/
def setInitialDir (d : FatDriver) (ctx : Ptr) (w : FsWorld) : FsWorld :=
  let c := w.openCtx ctx
  let cluster := if c.walker.fullPath.head? = some slash ∨ c.procId = 0 then d.rootDirFirstCluster
    else (w.pcb (w.pcbOfId c.procId)).parentDirCluster
  storeParentCluster c.parentClusterStorage cluster
    (w.setOpenCtx ctx { c with currentCluster := cluster })

/-- `fs_open_submit_with_dir_parent`. -/
def fsOpenSubmitWithDirParent (d : FatDriver) (path : List Byte) (outFile : Ptr) (procId : Byte)
    (callback : Option FsCallback) (callerContext : Ptr) (parentClusterStorage : Ptr)
    (w : FsWorld) : FsWorld × FsAction :=
  let ctx := w.kmalloc.1
  let walker : PathWalker := ⟨path, 0, [], List.replicate 11 0⟩
  let w := w.kmalloc.2.setOpenCtx ctx
    ⟨.parseDirSector, walker, 0, 0, 0, outFile, parentClusterStorage, procId, callback,
      callerContext⟩
  let w := setInitialDir d ctx w
  -- parse the first component before posting any IO
  let walker := pathWalkerAdvance walker
  let walker := { walker with component83 := makeFat83Name walker.component }
  let w := w.setOpenCtx ctx { w.openCtx ctx with walker := walker, sectorInCluster := 0 }
  fsOpenPostIo ctx (d.clusterToLba (w.openCtx ctx).currentCluster) .parseDirSector w

/-- `fs_open_submit`. -/
def fsOpenSubmit (d : FatDriver) (path : List Byte) (outFile : Ptr) (procId : Byte)
    (callback : Option FsCallback) (callerContext : Ptr) (w : FsWorld) : FsWorld × FsAction :=
  fsOpenSubmitWithDirParent d path outFile procId callback callerContext null w

/-- `fs_open_finish`. -/
def fsOpenFinish (ctx : Ptr) (w : FsWorld) : FsWorld × FsAction :=
  let c := w.openCtx ctx
  let ok : Int := if c.state = .done then 0 else -1
  if c.procId ≠ 0 then
    let pcb := w.pcbOfId c.procId
    let a0 : Word := if ok ≠ 0 then c.outFile else 0
    (unblockProcess pcb { w with tfA0 := Function.update w.tfA0 pcb a0 }, .stop)
  else
    match c.onComplete with
    | some cb => (w, .call (cb, c.callerCtx) ok)
    | none => (w, .stop)

/-- `fs_open_step`. -/
def fsOpenStep (d : FatDriver) (rx : Sector) (ctx : Ptr) (status : Int) (w : FsWorld) :
    FsWorld × FsAction :=
  let c := w.openCtx ctx
  if status ≠ 0 then fsOpenFinish ctx (w.setOpenCtx ctx { c with state := .error }) else
    match c.state with
    | .parseDirSector =>
      match scanDir rx c.walker.component83 entriesPerSector 0 with
      | .endOfDir => fsOpenFinish ctx (w.setOpenCtx ctx { c with state := .notFound })
      | .found e =>
        if !pathWalkerHasNext c.walker then
          let w := w.setFile c.outFile { w.file c.outFile with
            firstCluster := e.cluster
            currentCluster := e.cluster
            currentSector := 0
            currentByte := 0
            fd := 0
            fileOffset := 0
            fileSize := e.fileSize }
          fsOpenFinish ctx (w.setOpenCtx ctx { c with state := .done })
        else
          let w := storeParentCluster c.parentClusterStorage e.cluster
            (w.setOpenCtx ctx { c with
              walker := pathWalkerAdvance c.walker
              currentCluster := e.cluster
              sectorInCluster := 0 })
          fsOpenPostIo ctx (d.clusterToLba e.cluster) .parseDirSector w
      | .noMatch =>
        let c : FsOpenCtx := { c with
          sectorInCluster := c.sectorInCluster + 1
          currentLba := c.currentLba + 1 }
        let w := w.setOpenCtx ctx c
        if d.sectorsPerCluster ≤ c.sectorInCluster then
          fsOpenPostIo ctx (d.fatCalcualteLba c.currentCluster) .processFat w
        else fsOpenPostIo ctx c.currentLba .parseDirSector w
    | .processFat =>
      let next := d.getNextCluster rx c.currentCluster
      if EndOfChain next then fsOpenFinish ctx (w.setOpenCtx ctx { c with state := .notFound }) else
        fsOpenPostIo ctx (d.clusterToLba next) .parseDirSector
          (w.setOpenCtx ctx { c with currentCluster := next, sectorInCluster := 0 })
    | .done | .notFound | .error => (w, .stop)

end RiscyOS
