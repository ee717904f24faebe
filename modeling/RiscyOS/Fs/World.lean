import RiscyOS.Lib.Callback
import RiscyOS.Lib.Linked
import RiscyOS.Process

/-!
# The file system's data

The records of `include/file.h` and `include/io/fs/`, the loader's context from `kernel/fs/fs_elf.c`,
and the world they live in.  Every operation of the file system is a state machine: it keeps its
state in a context from the kernel heap and is driven by completions, each of which calls its `step`
function with the context.  Every one of those functions ends in one of three ways, by submitting a
read, by calling a completion callback, or by returning; that is `Callback.Action`, and the closures
are the step functions paired with their contexts.

The world keeps one map from pointers to records for each kind of record, as contexts and files are
distinct live allocations and none is reached through a pointer to another kind.  Buffers, into
which file contents are copied, are in the byte memory.  `kmalloc` and `ualloc` hand out the
addresses of given streams; `kfree` leaves the contents of what it frees alone.

The FAT driver, `kernel/fs/fs.s`, is a parameter: where a cluster starts, where its table entry is,
and what the entry in the receive buffer says.  `Volume` is a card together with a driver that reads
its table correctly.
-/

set_option autoImplicit false

namespace RiscyOS

open Memory

/-- The contents of a sector, by index.  There are 512 bytes in it. -/
abbrev Sector := Nat → Byte

/-- `fs_running_info` and the routines of the FAT driver. -/
structure FatDriver where
  sectorsPerCluster : Byte
  rootDirFirstCluster : Word
  /-- `cluster_to_lba`. -/
  clusterToLba : Word → Word
  /-- `fat_calcualte_lba`. -/
  fatCalcualteLba : Word → Word
  /-- `get_next_cluster`, given what is in the receive buffer. -/
  getNextCluster : Sector → Word → Word

/-- A `FILE`. -/
structure File where
  fd : Word
  firstCluster : Word
  currentCluster : Word
  currentSector : Word
  currentByte : Word
  fileOffset : Word
  fileSize : Word
  deriving DecidableEq, Repr

/-- The step functions, and whatever else is given as a completion callback by callers outside the
file system. -/
inductive FsCallback
  | fsOpenStep
  | fsReadStep
  | fsSeekStep
  | elfStep
  | client
  deriving DecidableEq, Repr

/-- A callback with its context. -/
abbrev FsClosure := FsCallback × Ptr

/-- What a function of the file system does last. -/
abbrev FsAction := Callback.Action Word FsClosure

/-! ## Contexts -/

/-- `fs_read_state_t`. -/
inductive FsReadState
  | loadContents
  | copyContents
  | seekRead
  | done
  | error
  deriving DecidableEq, Repr

/-- `fs_read_ctx_t`. -/
structure FsReadCtx where
  file : Ptr
  buffer : Ptr
  state : FsReadState
  bytesRemaining : Word
  callback : FsCallback
  ctx : Ptr
  deriving DecidableEq, Repr

/-- `seek_position_t`. -/
structure SeekPosition where
  clusterIndex : Word
  sectorInCluster : Byte
  byteInSector : BitVec 16
  deriving DecidableEq, Repr

/-- `fs_seek_state_t`. -/
inductive FsSeekState
  | walkFat
  | done
  | error
  deriving DecidableEq, Repr

/-- `fs_seek_ctx_t`. -/
structure FsSeekCtx where
  state : FsSeekState
  file : Ptr
  currentCluster : Word
  clustersRemaining : Word
  target : SeekPosition
  targetOffset : Word
  onComplete : FsCallback
  callerCtx : Ptr
  deriving DecidableEq, Repr

/-- `path_walker_t`.  The path and the current component are the strings they point at or hold,
without the terminator. -/
structure PathWalker where
  fullPath : List Byte
  offset : Int
  component : List Byte
  component83 : List Byte
  deriving DecidableEq, Repr

/-- `fs_open_state_t`. -/
inductive FsOpenState
  | parseDirSector
  | processFat
  | done
  | notFound
  | error
  deriving DecidableEq, Repr

/-- `fs_open_ctx_t`. -/
structure FsOpenCtx where
  state : FsOpenState
  walker : PathWalker
  currentCluster : Word
  currentLba : Word
  sectorInCluster : Byte
  outFile : Ptr
  parentClusterStorage : Ptr
  procId : Byte
  onComplete : Option FsCallback
  callerCtx : Ptr
  deriving DecidableEq, Repr

/-- `elf_state_t`. -/
inductive ElfState
  | opening
  | readingHeader
  | loadPheader
  | readPheader
  | seekPcontent
  | loadPcontent
  | closing
  | done
  | error
  deriving DecidableEq, Repr

/-- `process_image_t`, but for the parent directory, which is written through a pointer. -/
structure ProcessImage where
  ptextMemoryRegion : Ptr
  pdataMemoryRegion : Ptr
  pdataStart : Word
  heapStart : Word
  mepc : Word
  deriving DecidableEq, Repr

/-- `Elf32_Phdr`. -/
structure ElfPhdr where
  pType : Word
  pOffset : Word
  pVaddr : Word
  pPaddr : Word
  pFilesz : Word
  pMemsz : Word
  pFlags : Word
  pAlign : Word
  deriving DecidableEq, Repr

/-- `elf_ctx_t`, but for the parts that are written through pointers: the file, the two headers and
the parent directory of the image. -/
structure ElfCtx where
  state : ElfState
  currentSeg : Word
  tmpImage : ProcessImage
  pcb : Ptr
  segBuf : Ptr
  /-- Not in the source: the program headers processed so far. -/
  processed : List ElfPhdr
  deriving DecidableEq, Repr

/-! ## The world -/

/-- Everything the file system reads and writes. -/
structure FsWorld where
  mem : Mem
  file : Ptr → File
  readCtx : Ptr → FsReadCtx
  seekCtx : Ptr → FsSeekCtx
  openCtx : Ptr → FsOpenCtx
  elfCtx : Ptr → ElfCtx
  /-- Words written through a pointer. -/
  cell : Ptr → Word
  region : Ptr → MemoryRegion
  pcb : Ptr → Pcb
  /-- The trap frame's `TF_A0`, by PCB. -/
  tfA0 : Ptr → Word
  /-- `get_pcb_from_id`. -/
  pcbOfId : Byte → Ptr
  /-- What the next calls of `kmalloc` for a context return. -/
  kmallocs : Nat → Ptr
  /-- What the next calls of `kmalloc` for a memory region's record return. -/
  kmallocRegions : Nat → Ptr
  /-- What the next calls of `ualloc` return. -/
  uallocs : Nat → Ptr

namespace FsWorld

/-- `kmalloc`. -/
def kmalloc (w : FsWorld) : Ptr × FsWorld :=
  (w.kmallocs 0, { w with kmallocs := fun n => w.kmallocs (n + 1) })

/-- A store to a file. -/
def setFile (w : FsWorld) (p : Ptr) (f : File) : FsWorld :=
  { w with file := Function.update w.file p f }

/-- A store to a read context. -/
def setReadCtx (w : FsWorld) (p : Ptr) (c : FsReadCtx) : FsWorld :=
  { w with readCtx := Function.update w.readCtx p c }

/-- A store to a seek context. -/
def setSeekCtx (w : FsWorld) (p : Ptr) (c : FsSeekCtx) : FsWorld :=
  { w with seekCtx := Function.update w.seekCtx p c }

/-- A store to an open context. -/
def setOpenCtx (w : FsWorld) (p : Ptr) (c : FsOpenCtx) : FsWorld :=
  { w with openCtx := Function.update w.openCtx p c }

/-- A store to a loader context. -/
def setElfCtx (w : FsWorld) (p : Ptr) (c : ElfCtx) : FsWorld :=
  { w with elfCtx := Function.update w.elfCtx p c }

end FsWorld

section Stores

variable (w : FsWorld) (p : Ptr)

@[simp]
theorem setFile_file (f : File) : (w.setFile p f).file p = f := Function.update_self ..

@[simp]
theorem setReadCtx_readCtx (c : FsReadCtx) : (w.setReadCtx p c).readCtx p = c :=
  Function.update_self ..

@[simp]
theorem setReadCtx_setReadCtx (c c' : FsReadCtx) :
    (w.setReadCtx p c).setReadCtx p c' = w.setReadCtx p c' := by
  rw [FsWorld.setReadCtx, FsWorld.setReadCtx, FsWorld.setReadCtx]
  simp only [Function.update_idem]

@[simp]
theorem setSeekCtx_seekCtx (c : FsSeekCtx) : (w.setSeekCtx p c).seekCtx p = c :=
  Function.update_self ..

@[simp]
theorem setOpenCtx_openCtx (c : FsOpenCtx) : (w.setOpenCtx p c).openCtx p = c :=
  Function.update_self ..

@[simp]
theorem setOpenCtx_setOpenCtx (c c' : FsOpenCtx) :
    (w.setOpenCtx p c).setOpenCtx p c' = w.setOpenCtx p c' := by
  rw [FsWorld.setOpenCtx, FsWorld.setOpenCtx, FsWorld.setOpenCtx]
  simp only [Function.update_idem]

@[simp]
theorem setElfCtx_elfCtx (c : ElfCtx) : (w.setElfCtx p c).elfCtx p = c := Function.update_self ..

end Stores

/-! ## Volumes -/

/-- A cluster number that ends a chain. -/
def EndOfChain (c : Word) : Prop := 0x0FFFFFF8 ≤ c ∨ c = 0

instance : DecidablePred EndOfChain := fun _ => inferInstanceAs (Decidable (_ ∨ _))

/-- A card with a file system on it: its sectors, and the successor of every cluster.  The driver
reads the successors off the card. -/
structure Volume extends FatDriver where
  disk : Word → Sector
  /-- The allocation table. -/
  fat : Word → Word
  sectorsPerCluster_pos : 0 < sectorsPerCluster.toNat
  getNextCluster_eq : ∀ c, getNextCluster (disk (fatCalcualteLba c)) c = fat c

namespace Volume

variable (v : Volume)

/-- The bytes in a cluster. -/
def bytesPerCluster : Nat := 512 * v.sectorsPerCluster.toNat

/-- The chain of clusters from `c`. -/
def Chain (c : Word) (l : List Word) : Prop := Linked v.fat EndOfChain c l

/-- Byte `i` of the file whose clusters are `l`. -/
def fileByte (l : List Word) (i : Nat) : Byte :=
  v.disk (v.clusterToLba (l.getD (i / v.bytesPerCluster) 0) +
    BitVec.ofNat 32 (i % v.bytesPerCluster / 512)) (i % 512)

end Volume

/-! ### A small volume

One sector to the cluster, the allocation table in sector 1, and the clusters from sector 10 on. -/

/-- A driver for it that does what the one in `fs.s` says it does: the entry of cluster `c` is the
low 28 bits of word `c` of the table. -/
def smallDriver : FatDriver where
  sectorsPerCluster := 1
  rootDirFirstCluster := 2
  clusterToLba c := 10 + (c - 2)
  fatCalcualteLba c := 1 + c / 128
  getNextCluster s c :=
    let i := 4 * (c.toNat % 128)
    (s (i + 3) ++ s (i + 2) ++ s (i + 1) ++ s i) &&& 0x0FFFFFFF

/-- The volume on a given card. -/
def smallVolume (disk : Word → Sector) : Volume :=
  { smallDriver with
    disk := disk
    fat := fun c => smallDriver.getNextCluster (disk (smallDriver.fatCalcualteLba c)) c
    sectorsPerCluster_pos := by decide
    getNextCluster_eq := fun _ => rfl }

/-- A sector that holds the given bytes, and zeros after them. -/
def sectorOf (bytes : List Byte) : Sector := fun i => bytes.getD i 0

/-- A world with nothing in it. -/
def emptyWorld : FsWorld where
  mem := fun _ => 0
  file := fun _ => ⟨0, 0, 0, 0, 0, 0, 0⟩
  readCtx := fun _ => ⟨0, 0, .error, 0, .client, 0⟩
  seekCtx := fun _ => ⟨.error, 0, 0, 0, ⟨0, 0, 0⟩, 0, .client, 0⟩
  openCtx := fun _ => ⟨.error, ⟨[], 0, [], []⟩, 0, 0, 0, 0, 0, 0, none, 0⟩
  elfCtx := fun _ => ⟨.error, 0, ⟨0, 0, 0, 0, 0⟩, 0, 0, []⟩
  cell := fun _ => 0
  region := fun _ => ⟨0, 0, 0⟩
  pcb := fun _ => Pcb.zero
  tfA0 := fun _ => 0
  pcbOfId := fun _ => 0
  kmallocs := fun n => 0x1000 + 0x100 * BitVec.ofNat 32 n
  kmallocRegions := fun n => 0x6000 + 0x10 * BitVec.ofNat 32 n
  uallocs := fun n => 0x40000 + 0x1000 * BitVec.ofNat 32 n

end RiscyOS
