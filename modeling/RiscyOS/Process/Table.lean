import RiscyOS.Arch.ContextSwitch
import RiscyOS.Fs.Elf
import RiscyOS.Lib.Record

/-!
# The process table

`kernel/process.s` and `kernel/memory/memory_segment.s`: creating, copying and ending processes, and
the reference counts of the memory they share.  Two earlier files look at a PCB as a record with the
fields they need.  Here it is 172 bytes of a flat memory, because what this code does depends on that:
`fork` makes the child by copying bytes, `exit` follows a pointer one step too far, and both store
through addresses that nothing keeps inside a record.

* `Kernel` — the memory, the variables of the scheduler, the CSRs and the MMU; and beside them what a
  reader of the code has in mind and the code has not: which PCBs and region records are handed out
  (`pcbs`, `regions`), which processes have exited, which are marked blocked, and which loads and
  requests to the terminal are in flight.
* the functions of the source under their own names, registers included where they matter;
* `Kernel.Step` — everything that happens to the table: a system call, the end of a load or of a
  request, a decision of the scheduler, and whatever else runs in between (`Kernel.Others`).

The allocators are not modelled again.  What `slab_get` and `kmalloc` return is part of the event, and
`Kernel.Grants` is their promise: null, or a block apart from those handed out.  The memory of a block
that is not handed out is anybody's, so a new record holds whatever happens to be there.
-/

set_option autoImplicit false

namespace RiscyOS

open Memory

/-! ## Layout

The offsets of `include/trap.inc`, `include/process.inc` and `include/memory_region.inc`. -/

/-- `TF_RA`, the first word of a PCB. -/
def tfRa : Nat := 0
def tfA0 : Nat := 32
def pcbMepc : Nat := 120
def pcbMstatus : Nat := 124
def pcbMscratch : Nat := 128
def pcbNext : Nat := 132
def pcbBrk : Nat := 140
def pcbPtextMemoryRegion : Nat := 144
def pcbPdataMemoryRegion : Nat := 148
def pcbParentDirCluster : Nat := 152
def pcbPdataStart : Nat := 156
def pcbPheapStart : Nat := 160
def pcbPid : Nat := 164
def pcbPpid : Nat := 165
def pcbExitCode : Nat := 166
def pcbStatus : Nat := 167
def pcbWaitReason : Nat := 168
def pcbSize : Nat := 172

def memoryRegionPhysicalBase : Nat := 0
def memoryRegionSize : Nat := 4
def memoryRegionRefCount : Nat := 8
def memoryRegionStructSize : Nat := 12

/-- `STATE_ZOMBIE` of `include/process.inc`, which is not that of `include/process.h`. -/
def stateZombie : Byte := 3

/-- `WAITING_FOR_CHILD`. -/
def waitingForChild : Byte := 1

/-- The bytes of the PCB at `p`. -/
def pcbSpan (p : Ptr) : Span := ⟨p, pcbSize⟩

/-- The bytes of the region record at `r`. -/
def regionSpan (r : Ptr) : Span := ⟨r, memoryRegionStructSize⟩

/-- The first bytes of memory, which belong to the kernel image. -/
def lowSpan : Span := ⟨0, 256⟩

/-! ## The state -/

/-- The state of the process table. -/
structure Kernel where
  mem : Mem
  currentPcb : Ptr
  kidle : Byte
  csr : Csr
  mmu : MmuRegs
  pcbNextPid : Word
  /-- The PCBs handed out by the slab cache. -/
  pcbs : List Ptr
  /-- The region records handed out by the kernel heap. -/
  regions : List Ptr
  /-- The PCBs that loads in flight are for. -/
  loads : List Ptr
  /-- The PCBs that requests to the terminal in flight are for. -/
  requests : List Ptr
  /-- The PCBs of processes that have called exit. -/
  exited : List Ptr
  /-- The PCBs marked blocked and not unblocked since. -/
  blocked : List Ptr
  /-- The records whose user memory `release_memory_segment` has given back in this step. -/
  released : List Ptr

namespace Kernel

/-- `PCB_NEXT`. -/
def next (s : Kernel) (p : Ptr) : Ptr := word s.mem p pcbNext

/-- `PCB_PTEXT_MEMORY_REGION`. -/
def ptext (s : Kernel) (p : Ptr) : Ptr := word s.mem p pcbPtextMemoryRegion

/-- `PCB_PDATA_MEMORY_REGION`. -/
def pdata (s : Kernel) (p : Ptr) : Ptr := word s.mem p pcbPdataMemoryRegion

/-- `PCB_PID`. -/
def pid (s : Kernel) (p : Ptr) : Byte := byte s.mem p pcbPid

/-- `PCB_STATUS`. -/
def status (s : Kernel) (p : Ptr) : Byte := byte s.mem p pcbStatus

/-- `MEMORY_REGION_REF_COUNT`. -/
def refCount (s : Kernel) (r : Ptr) : Word := word s.mem r memoryRegionRefCount

/-- **What an allocator may return** for `n` bytes: null, or a block in the kernel heap that is apart
from what is handed out. -/
def Grants (s : Kernel) (p : Ptr) (n : Nat) : Prop :=
  p = null ∨ (Span.mk p n).Apart lowSpan ∧ (∀ q ∈ s.pcbs, (Span.mk p n).Apart (pcbSpan q)) ∧
    ∀ r ∈ s.regions, (Span.mk p n).Apart (regionSpan r)

instance (s : Kernel) (p : Ptr) (n : Nat) : Decidable (s.Grants p n) :=
  @instDecidableOr _ _ _ (@instDecidableAnd _ _ _ (@instDecidableAnd _ _ (List.decidableBAll _ _)
    (List.decidableBAll _ _)))

/-! ## Memory regions -/

/-- `aquire_memory_segment`. -/
def aquireMemorySegment (m : Mem) (a0 : Ptr) : Mem :=
  if a0 = null then m
  else setWord m a0 memoryRegionRefCount (word m a0 memoryRegionRefCount + 1)

/-- `release_memory_segment`.  With the last user gone, the memory goes back to the user allocator and
the record to the kernel heap. -/
def releaseMemorySegment (s : Kernel) (a0 : Ptr) : Kernel :=
  if a0 = null then s else
    let t0 := word s.mem a0 memoryRegionRefCount - 1
    if t0 = 0 then { s with regions := s.regions.erase a0, released := a0 :: s.released }
    else { s with mem := setWord s.mem a0 memoryRegionRefCount t0 }

/-- What `release_memory_segment` leaves in `t0`: its own use of it, or what `ufree` and `kfree` do. -/
def releaseT0 (s : Kernel) (a0 : Ptr) (t0 junk : Word) : Word :=
  if a0 = null then t0 else
    let t0 := word s.mem a0 memoryRegionRefCount - 1
    if t0 = 0 then junk else t0

/-! ## PCBs -/

/-- `pid_alloc` and `alloc_pcb`, with `a0` what `slab_get` returns.  The counter is a word and the
field a byte, and a null pointer is stored through like any other.  The process is a new one. -/
def allocPcb (s : Kernel) (a0 : Ptr) : Kernel :=
  let a1 := s.pcbNextPid + 1
  { s with
    pcbNextPid := a1
    mem := setByte s.mem a0 pcbPid (a1.setWidth 8)
    pcbs := if a0 = null then s.pcbs else a0 :: s.pcbs
    exited := s.exited.filter (· ≠ a0)
    blocked := s.blocked.filter (· ≠ a0) }

/-- `free_pcb`. -/
def freePcb (s : Kernel) (a0 : Ptr) : Kernel := { s with pcbs := s.pcbs.erase a0 }

/-- `block_current_process`. -/
def blockCurrentProcess (s : Kernel) : Kernel :=
  { s with
    mem := setByte s.mem s.currentPcb pcbStatus stateBlocked
    blocked := s.currentPcb :: s.blocked }

/-- `unblock_process`. -/
def unblockProcess (s : Kernel) (a0 : Ptr) : Kernel :=
  { s with
    mem := setByte s.mem a0 pcbStatus stateReady
    blocked := s.blocked.filter (· ≠ a0) }

/-- The loop of `get_pcb_from_id`, from `t0` around to `t3`. -/
def getPcbLoop (m : Mem) (t3 : Ptr) (a0 : Byte) : Nat → Ptr → Option Ptr
  | 0, _ => none
  | fuel + 1, t0 =>
    if byte m t0 pcbPid = a0 then some t0 else
      let t0 := word m t0 pcbNext
      if t0 ≠ t3 then getPcbLoop m t3 a0 fuel t0 else some null

/-- `get_pcb_from_id`.  Running out of fuel is a ring that never comes back to the current PCB. -/
def getPcbFromId (s : Kernel) (a0 : Byte) : Option Ptr :=
  if s.currentPcb = null then some null
  else getPcbLoop s.mem s.currentPcb a0 (2 ^ 32) s.currentPcb

/-! ## Fork -/

/-- `memcpy`: a byte at a time from the front, with `t2` bytes to go. -/
def memcpy (m : Mem) (t0 t1 : Word) : Nat → Mem
  | 0 => m
  | t2 + 1 => memcpy (store8 m t1 (m t0)) (t0 + 1) (t1 + 1) t2

/-- What `fork` gets from the functions it calls: the memory for the child's data, its PCB and its
region record; and what they leave in `a2`, where `memcpy` takes its size from. -/
structure ForkGrants where
  umem : Word
  pcb : Ptr
  region : Ptr
  a2 : Word
  deriving DecidableEq, Repr

/-- `fork_ualloc_fail`. -/
def forkUallocFail (s : Kernel) (s0 : Ptr) : Kernel :=
  let s := s.releaseMemorySegment (s.ptext s0)
  { s with mem := setWord s.mem s0 tfA0 (-1) }

/-- The stores of `ecall_fork` from `memcpy` on. -/
def forkStores (m : Mem) (csr : Csr) (s0 : Ptr) (g : ForkGrants) : Mem :=
  let a0 := g.pcb
  let m := memcpy m s0 a0 g.a2.toNat
  let m := setWord m s0 tfA0 ((byte m a0 pcbPid).setWidth 32)
  let m := setWord m a0 tfA0 0
  let m := setByte m a0 pcbPpid (byte m s0 pcbPid)
  let m := setWord m a0 pcbPdataMemoryRegion g.region
  let m := setWord m s0 pcbNext a0
  let m := setByte m a0 pcbStatus stateReady
  let m := setWord m a0 pcbMepc csr.mepc
  setWord m a0 pcbMscratch csr.mscratch

/-- The child's region record: one more user than what is there, and the memory it describes. -/
def forkRegion (s : Kernel) (s0 : Ptr) (g : ForkGrants) : Mem :=
  let m := aquireMemorySegment s.mem g.region
  let m := setWord m g.region memoryRegionPhysicalBase g.umem
  setWord m g.region memoryRegionSize (word m (word m s0 pcbPdataMemoryRegion) memoryRegionSize)

/-- `ecall_fork`. -/
def ecallFork (s : Kernel) (a0 : Ptr) (g : ForkGrants) : Kernel :=
  let s0 := a0
  let s := { s with mem := aquireMemorySegment s.mem (s.ptext s0) }
  if g.umem = 0 then s.forkUallocFail s0 else
    let s := s.allocPcb g.pcb
    if g.pcb = null then s.forkUallocFail s0
    else if g.region = null then (s.freePcb g.pcb).forkUallocFail s0
    else { s with
      regions := g.region :: s.regions
      mem := forkStores (s.forkRegion s0 g) s.csr s0 g }

/-! ## Exit -/

/-- `reap_child`. -/
def reapChild (s : Kernel) (a0 a1 : Ptr) : Kernel :=
  let t0 := byte s.mem a0 pcbExitCode
  { s with mem := setWord s.mem a1 tfA0 (t0.setWidth 32) }.freePcb a0

/-- The exit code and the state. -/
def exitMark (s : Kernel) (a0 : Ptr) : Kernel :=
  let m := setByte s.mem a0 pcbExitCode ((word s.mem a0 tfA0).setWidth 8)
  { s with mem := setByte m a0 pcbStatus stateZombie, exited := a0 :: s.exited }

/-- The first half of `ecall_exit`: the marks, and the text region. -/
def exitText (s : Kernel) (a0 : Ptr) : Kernel :=
  let s := s.exitMark a0
  s.releaseMemorySegment (s.ptext a0)

/-- What `ecall_exit` takes for the PCB when it looks for the data region.  The second `lw t0, [t0]`
reads a word where the address is that of the PCB already: it is the saved `ra`. -/
def exitPcb (s : Kernel) : Ptr := word s.mem s.currentPcb tfRa

/-- `ecall_exit` up to the search for the parent, with `t0` as the search finds it. -/
def exitRelease (s : Kernel) (a0 : Ptr) (junk : Word) : Kernel × Ptr :=
  let s := s.exitText a0
  let t0 := s.exitPcb
  let a0 := s.pdata t0
  (s.releaseMemorySegment a0, s.releaseT0 a0 t0 junk)

/-- The part of `ecall_exit` from label `1` on, that looks for the parent of the process at `t0`.  An
orphan is given to process 1 and the search repeated. -/
def exitParent : Nat → Kernel → Ptr → Option Kernel
  | 0, _, _ => none
  | fuel + 1, s, t0 => do
    let a0 ← s.getPcbFromId (byte s.mem t0 pcbPpid)
    if a0 = null then
      -- process_is_little_orphan_annie
      let t0 := s.exitPcb
      exitParent fuel { s with mem := setByte s.mem t0 pcbPpid 1 } t0
    else if byte s.mem a0 pcbStatus = stateBlocked ∧ byte s.mem a0 pcbWaitReason = waitingForChild then
      -- the search leaves the PCB it has found in t0 as well as in a0
      some (s.reapChild a0 a0)
    else some s

/-- `ecall_exit`. -/
def ecallExit (s : Kernel) (a0 : Ptr) (junk : Word) : Option Kernel :=
  exitParent (2 ^ 32) (s.exitRelease a0 junk).1 (s.exitRelease a0 junk).2

/-! ## Loading a program -/

/-- `elf_load_submit`, as far as the table is concerned. -/
def elfLoadSubmit (s : Kernel) (a1 : Ptr) : Kernel := { s with loads := a1 :: s.loads }

/-- `kexecve`. -/
def kexecve (s : Kernel) (slab : Ptr) : Kernel :=
  let s := s.allocPcb slab
  let m := setByte s.mem slab pcbStatus stateBlocked
  let m := setWord m slab pcbNext slab
  let m := setWord m slab pcbPtextMemoryRegion 0
  let m := setWord m slab pcbPdataMemoryRegion 0
  { s with mem := m, currentPcb := slab, blocked := slab :: s.blocked }.elfLoadSubmit slab

/-- A loadable segment in the order of the program headers, with the region record and the memory the
loader has got for it. -/
structure Segment where
  pheader : ElfPhdr
  region : Ptr
  umem : Word

/-- The records of the segments, each with one user. -/
def allocSegments (s : Kernel) : List Segment → Kernel
  | [] => s
  | seg :: segs =>
    let m := setWord s.mem seg.region memoryRegionPhysicalBase seg.umem
    let m := setWord m seg.region memoryRegionSize seg.pheader.pMemsz
    let m := setWord m seg.region memoryRegionRefCount 1
    allocSegments { s with mem := m, regions := seg.region :: s.regions } segs

/-- The image that the segments leave: of two of one kind the second replaces the first. -/
def imageOf (hdr : ElfEhdr) (segs : List Segment) : ProcessImage :=
  segs.foldl (fun image seg => imageSegment image hdr seg.pheader seg.region) ⟨null, null, 0, 0, 0⟩

/-- `elf_finish` of a load that went through. -/
def elfFinishDone (s : Kernel) (pcb : Ptr) (image : ProcessImage) (parentDirCluster : Word) : Kernel :=
  let textSize := word s.mem image.ptextMemoryRegion memoryRegionSize
  let s := { s with mem := setWord s.mem pcb pcbMscratch (image.pdataStart + textSize) }
  let s := s.releaseMemorySegment (s.ptext pcb)
  let s := s.releaseMemorySegment (s.pdata pcb)
  let m := setWord s.mem pcb pcbBrk image.heapStart
  let m := setWord m pcb pcbPheapStart image.heapStart
  let m := setWord m pcb pcbMepc image.mepc
  let m := setWord m pcb pcbPdataMemoryRegion image.pdataMemoryRegion
  let m := setWord m pcb pcbPtextMemoryRegion image.ptextMemoryRegion
  let m := setWord m pcb pcbPdataStart image.pdataStart
  let m := setWord m pcb pcbParentDirCluster parentDirCluster
  { s with mem := m }.unblockProcess pcb

/-- `elf_finish` of a load that failed. -/
def elfFinishError (s : Kernel) (pcb : Ptr) (image : ProcessImage) : Kernel :=
  { s with regions := (s.regions.erase image.ptextMemoryRegion).erase image.pdataMemoryRegion
    }.unblockProcess pcb

/-! ## Scheduling -/

/-- The fields of a PCB that the context switch uses. -/
def pcbAt (m : Mem) (p : Ptr) : Pcb where
  mepc := word m p pcbMepc
  mstatus := word m p pcbMstatus
  mscratch := word m p pcbMscratch
  next := word m p pcbNext
  brk := word m p pcbBrk
  ptextMemoryRegion := word m p pcbPtextMemoryRegion
  pdataMemoryRegion := word m p pcbPdataMemoryRegion
  parentDirCluster := word m p pcbParentDirCluster
  pdataStart := word m p pcbPdataStart
  heapStart := word m p pcbPheapStart
  pstatus := byte m p pcbStatus

/-- The region record at `r`. -/
def regionAt (m : Mem) (r : Ptr) : MemoryRegion where
  physicalBase := word m r memoryRegionPhysicalBase
  regionSize := word m r memoryRegionSize
  referenceCount := word m r memoryRegionRefCount

/-- What the scheduler sees. -/
def machine (s : Kernel) : Machine where
  currentPcb := s.currentPcb
  kidle := s.kidle
  csr := s.csr
  mmu := s.mmu
  pcb := pcbAt s.mem
  region := regionAt s.mem

/-- CSR values are parked in the PCB at `p`. -/
def parkCsr (m : Mem) (p : Ptr) (c : Csr) : Mem :=
  setWord (setWord (setWord m p pcbMepc c.mepc) p pcbMstatus c.mstatus) p pcbMscratch c.mscratch

/-- `schedule`: a decision about the machine the scheduler sees, of which only the PCB switched out is
written back. -/
def schedule (idle : Word) (s : Kernel) : Option Kernel :=
  (RiscyOS.schedule idle s.machine).map fun t =>
    { s with
      currentPcb := t.currentPcb
      kidle := t.kidle
      csr := t.csr
      mmu := t.mmu
      mem := if s.currentPcb = null then s.mem else
        parkCsr s.mem s.currentPcb (t.pcb s.currentPcb).csr }

/-! ## Requests -/

/-- What `tty_make_request` makes: the record, and where it is linked up.  That is where a walk from what
the routine takes for the head of the queue comes to an end. -/
structure MadeRequest where
  link : Word
  record : Ptr
  deriving DecidableEq, Repr

/-- `tty_make_request`, as far as the table is concerned.  The length may not be positive, and then no
request is made. -/
def ttyMakeRequest (s : Kernel) : Option MadeRequest → Kernel
  | none => s
  | some made =>
    let s := s.blockCurrentProcess
    { s with mem := setWord s.mem made.link 0 made.record, requests := s.currentPcb :: s.requests }

/-- `ecall_write`.  What `tty_make_request` returns is null either way, and that leads to `schedule`. -/
def ecallWrite (idle : Word) (s : Kernel) (made : Option MadeRequest) : Option Kernel :=
  (s.ttyMakeRequest made).schedule idle

/-! ## Runs -/

/-- The way into a system call: `ecall_handler` moves the saved program counter past the `ecall`. -/
def ecall (s : Kernel) : Kernel :=
  { s with released := [], csr := { s.csr with mepc := s.csr.mepc + 4 } }

/-- What everything else leaves alone: of a PCB handed out the links, the pointers to regions and the
bytes from the process id on, and the region records handed out. -/
structure Others (s : Kernel) (m : Mem) : Prop where
  next : ∀ p ∈ s.pcbs, word m p pcbNext = word s.mem p pcbNext
  ptext : ∀ p ∈ s.pcbs, word m p pcbPtextMemoryRegion = word s.mem p pcbPtextMemoryRegion
  pdata : ∀ p ∈ s.pcbs, word m p pcbPdataMemoryRegion = word s.mem p pcbPdataMemoryRegion
  process : ∀ p ∈ s.pcbs, ∀ i, pcbPid ≤ i → i ≤ pcbWaitReason → byte m p i = byte s.mem p i
  region : ∀ r ∈ s.regions, ∀ i, i < memoryRegionStructSize → byte m r i = byte s.mem r i

/-- The segments are given records one after another. -/
def GrantsSegments (s : Kernel) : List Segment → Prop
  | [] => True
  | seg :: segs => seg.region ≠ null ∧ s.Grants seg.region memoryRegionStructSize ∧
    GrantsSegments { s with regions := seg.region :: s.regions } segs

/-- Something happens to the table. -/
inductive Event where
  | kexecve (slab : Ptr)
  | fork (g : ForkGrants)
  | exit (junk : Word)
  | execve
  | loaded (pcb : Ptr) (hdr : ElfEhdr) (segs : List Segment) (parentDirCluster : Word)
  | loadFailed (pcb : Ptr) (hdr : ElfEhdr) (segs : List Segment)
  | write (made : Option MadeRequest)
  | completed (pcb : Ptr)
  | schedule
  | others (m : Mem) (csr : Csr)

/-- **One step.**  System calls are made by the process that is running.  `ecall_read` is not one of
them: it does not come back.  When a request to the terminal is over, `unblock_process` is called with
what the terminal takes for the PCB. -/
inductive Step (idle : Word) (s : Kernel) : Event → Kernel → Prop
  | kexecve (slab : Ptr) (hslab : s.Grants slab pcbSize) :
      Step idle s (.kexecve slab) ({ s with released := [] }.kexecve slab)
  | fork (g : ForkGrants) (hrun : s.kidle = 0) (hcur : s.currentPcb ≠ null)
      (hpcb : s.Grants g.pcb pcbSize)
      (hregion : (s.allocPcb g.pcb).Grants g.region memoryRegionStructSize) :
      Step idle s (.fork g) (s.ecall.ecallFork s.currentPcb g)
  | exit (junk : Word) {t : Kernel} (hrun : s.kidle = 0) (hcur : s.currentPcb ≠ null)
      (hexit : s.ecall.ecallExit s.currentPcb junk = some t) :
      Step idle s (.exit junk) t
  | execve (hrun : s.kidle = 0) (hcur : s.currentPcb ≠ null) :
      Step idle s .execve (s.ecall.elfLoadSubmit s.currentPcb)
  | loaded (pcb : Ptr) (hdr : ElfEhdr) (segs : List Segment) (parentDirCluster : Word)
      (hload : pcb ∈ s.loads) (hsegs : s.GrantsSegments segs) :
      Step idle s (.loaded pcb hdr segs parentDirCluster)
        (({ s with released := [], loads := s.loads.erase pcb }.allocSegments segs).elfFinishDone pcb
          (imageOf hdr segs) parentDirCluster)
  | loadFailed (pcb : Ptr) (hdr : ElfEhdr) (segs : List Segment)
      (hload : pcb ∈ s.loads) (hsegs : s.GrantsSegments segs) :
      Step idle s (.loadFailed pcb hdr segs)
        (({ s with released := [], loads := s.loads.erase pcb }.allocSegments segs).elfFinishError pcb
          (imageOf hdr segs))
  | write (made : Option MadeRequest) {t : Kernel} (hrun : s.kidle = 0) (hcur : s.currentPcb ≠ null)
      (hwrite : s.ecall.ecallWrite idle made = some t) :
      Step idle s (.write made) t
  | completed (pcb : Ptr) :
      Step idle s (.completed pcb)
        ({ s with released := [], requests := s.requests.erase pcb }.unblockProcess pcb)
  | schedule {t : Kernel} (hdecide : { s with released := [] }.schedule idle = some t) :
      Step idle s .schedule t
  | others (m : Mem) (csr : Csr) (hothers : s.Others m) :
      Step idle s (.others m csr) { s with released := [], mem := m, csr := csr }

/-- The table as `boot` leaves it to `kexecve`: nothing handed out, and the next process number 2. -/
structure Booted (s : Kernel) : Prop where
  current : s.currentPcb = null
  running : s.kidle = 0
  nextPid : s.pcbNextPid = 1
  pcbs : s.pcbs = []
  regions : s.regions = []
  loads : s.loads = []
  requests : s.requests = []
  exited : s.exited = []
  blocked : s.blocked = []
  released : s.released = []

/-- The states reached by steps that meet the condition. -/
inductive Reach (idle : Word) (init : Kernel → Prop) (cond : Kernel → Event → Prop) : Kernel → Prop
  | start {s : Kernel} (h : init s) : Reach idle init cond s
  | step {s t : Kernel} {e : Event} (h : Reach idle init cond s) (hcond : cond s e)
      (hstep : s.Step idle e t) : Reach idle init cond t

end Kernel

end RiscyOS
