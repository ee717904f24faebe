import RiscyOS.Fs.Effects
import RiscyOS.Io.SchedulerShape

/-!
# The file system and its scheduler, running

Here the pieces are put together: the step functions of `kernel/fs/` over the scheduler of
`kernel/io/`, with any number of operations under way, each started whenever its client likes.  A
state `FsSys` holds the data of the file system, the scheduler with the card, the callback that is
due to be called next, if any, and the books: which blocks of the kernel heap are in use, how many
operations have been started and which of them have completed, and which sectors have been read
behind the scheduler's back.

An event is a call by a client, one callback, an interrupt, or a move of the pump.  With the event
comes whatever is not decided by the kernel itself: the addresses that `kmalloc` hands out, where
nothing is in use; how the card takes a command; and the status a completion comes with.

`fat_calcualte_lba` is here as `kernel/fs/fs.s` has it.  When the sector it computes is not beyond
the size of the table, it does not return it, but goes on into `sd_start_read` with it; and what it
returns then is the card's response.
-/

set_option autoImplicit false

namespace RiscyOS

open Memory

/-! ## The driver -/

/-- `fs_running_info`. -/
structure FsRunningInfo where
  sectorsPerCluster : Byte
  fatBeginLba : Word
  clusterBeginLba : Word
  fatSectorCount : Word
  rootDirFirstCluster : Word
  deriving DecidableEq, Repr

namespace FsRunningInfo

/-- The sector of the table in which `fat_calcualte_lba` looks for a cluster. -/
def fatSector (info : FsRunningInfo) (cluster : Word) : Word :=
  cluster.sdiv 512 + info.fatBeginLba

/-- The read that `fat_calcualte_lba` starts by itself, if it does. -/
def strayRead (info : FsRunningInfo) (cluster : Word) : Option Word :=
  if info.fatSectorCount.slt (info.fatSector cluster) then none else some (info.fatSector cluster)

/-- `cluster_to_lba`. -/
def clusterToLba (info : FsRunningInfo) (cluster : Word) : Word :=
  (cluster - 2) * info.sectorsPerCluster.setWidth 32 + info.clusterBeginLba

/-- `fat_calcualte_lba`, with `r1` the response of the card if it is asked for a sector. -/
def fatCalcualteLba (info : FsRunningInfo) (r1 cluster : Word) : Word :=
  if (info.strayRead cluster).isSome then r1 else info.fatSector cluster

/-- The driver, with a given way to read the table. -/
def driver (info : FsRunningInfo) (getNextCluster : Sector → Word → Word) (r1 : Word) :
    FatDriver where
  sectorsPerCluster := info.sectorsPerCluster
  rootDirFirstCluster := info.rootDirFirstCluster
  clusterToLba := info.clusterToLba
  fatCalcualteLba := info.fatCalcualteLba r1
  getNextCluster := getNextCluster

end FsRunningInfo

/-! ## The books -/

/-- The operations started and completed.  They are numbered in the order of their starts, and
`number` is that of the last operation whose context was, or is, at a given place. -/
structure OpLog where
  number : FsClosure → Nat
  count : Nat
  completed : List Nat

/-- Follow one effect. -/
def OpLog.apply (o : OpLog) : FsEffect → OpLog
  | .heap (.alloc (.context k) p) =>
    { o with number := Function.update o.number (k, p) o.count, count := o.count + 1 }
  | .complete k => { o with completed := o.completed ++ [o.number k] }
  | .heap _ | .fatLba _ => o

/-- Follow one effect on the heap. -/
def applyHeap (L : Ledger BlockKind Ptr) : FsEffect → Ledger BlockKind Ptr
  | .heap op => L.apply op
  | .complete _ | .fatLba _ => L

/-- The context a block holds. -/
def contextOf : BlockKind × Ptr → Option FsClosure
  | (.context k, p) => some (k, p)
  | (.request, _) | (.region, _) | (.file, _) => none

/-- The read an effect starts by itself. -/
def strayOf (info : FsRunningInfo) : FsEffect → Option Word
  | .fatLba cluster => info.strayRead cluster
  | .heap _ | .complete _ => none

/-! ## The system -/

/-- The state of the system. -/
structure FsSys where
  world : FsWorld
  io : IoState FsCallback Sector
  /-- The callback to be called next, with its status. -/
  due : Option (FsClosure × Int)
  heap : Ledger BlockKind Ptr
  ops : OpLog
  /-- The sectors read by `fat_calcualte_lba`. -/
  strays : List Word

/-- The contexts that are in use. -/
def FsSys.contexts (s : FsSys) : List FsClosure := s.heap.blocks.filterMap contextOf

/-- What the allocators hand out. -/
structure Supply where
  ctx : Ptr
  /-- For a loader, which needs two contexts. -/
  ctx₂ : Ptr
  region : Ptr
  req : Ptr
  ualloc : Ptr
  deriving DecidableEq, Repr

/-- The addresses from the kernel heap. -/
def Supply.addresses (a : Supply) : List Ptr := [a.ctx, a.ctx₂, a.region, a.req]

/-- `kmalloc` succeeds, and hands out different addresses at which there is nothing. -/
def Supply.Fresh (a : Supply) (s : FsSys) : Prop :=
  a.addresses.Nodup ∧ ∀ p ∈ a.addresses, p ≠ null ∧ ¬ s.heap.Live p

instance (a : Supply) (s : FsSys) : Decidable (a.Fresh s) :=
  @instDecidableAnd _ _ inferInstance (List.decidableBAll _ _)

/-- The world with a supply. -/
def Supply.stock (a : Supply) (w : FsWorld) : FsWorld :=
  { w with
    kmallocs := fun n => if n = 0 then a.ctx else a.ctx₂
    kmallocRegions := fun _ => a.region
    uallocs := fun _ => a.ualloc }

/-- What a client can do.  Its callbacks are its own. -/
inductive FsOp
  | open (path : List Byte) (outFile : Ptr) (procId : Byte) (notify : Bool) (ctx : Ptr)
      (parentClusterStorage : Ptr)
  | seek (file : Ptr) (offset : Word) (whence : Option SeekWhence) (ctx : Ptr)
  | read (file buffer : Ptr) (bytes : Word) (ctx : Ptr)
  /-- `make_file_struct`. -/
  | makeFile
  | close (file : Ptr) (ctx : Ptr)
  /-- `elf_load_submit`. -/
  | load (path : List Byte) (pcb : Ptr)
  deriving DecidableEq, Repr

/-- What a client is asked to keep to: only a file it has, and that has not been closed, is
closed. -/
def FsOp.Allowed (s : FsSys) : FsOp → Prop
  | .close file _ => (.file, file) ∈ s.heap.blocks
  | .open .. | .seek .. | .read .. | .makeFile | .load .. => True

instance (s : FsSys) : DecidablePred (FsOp.Allowed s)
  | .close file _ => inferInstanceAs (Decidable ((.file, file) ∈ s.heap.blocks))
  | .open .. | .seek .. | .read .. | .makeFile | .load .. => .isTrue trivial

/-- The function called. -/
def fsOpCode (d : FatDriver) (op : FsOp) (w : FsWorld) : FsWorld × FsAction :=
  match op with
  | .open path outFile procId notify ctx parentClusterStorage =>
    fsOpenSubmitWithDirParent d path outFile procId (if notify then some .client else none) ctx
      parentClusterStorage w
  | .seek file offset whence ctx => fsSeekWhence d file offset whence .client ctx w
  | .read file buffer bytes ctx => fsReadSubmit d file buffer bytes .client ctx w
  | .makeFile => (w, .stop)
  | .close _ ctx => fsCloseSubmit .client ctx w
  | .load path pcb => elfLoadSubmit d path pcb w

/-- What it does on the way. -/
def fsOpEffects (d : FatDriver) (op : FsOp) (w : FsWorld) : List FsEffect :=
  match op with
  | .open .. => fsOpenSubmitEffects w
  | .seek file offset whence _ => fsSeekWhenceEffects d file offset whence w
  | .read .. => fsReadSubmitEffects w
  | .makeFile => [.heap (.alloc .file w.kmalloc.1)]
  | .close file _ => fsCloseSubmitEffects file
  | .load .. => elfLoadSubmitEffects w

/-- What can happen next. -/
inductive FsEvent
  /-- A client starts an operation. -/
  | start (op : FsOp) (a : Supply) (r1 : Word) (resp : SdResponse)
  /-- The callback that is due is called. -/
  | call (a : Supply) (r1 : Word) (resp : SdResponse)
  | irq
  | spurious
  | pump
  /-- The pump tests its loop; if it finds a completion, it comes with this status. -/
  | test (status : Int)
  | ret (resp : SdResponse)
  deriving DecidableEq, Repr

/-- The card is asked for a sector behind the scheduler's back. -/
def ioStray (io : IoState FsCallback Sector) (lba : Word) : IoState FsCallback Sector :=
  { io with sdState := .waitRead, reading := some lba, rx := none }

/-- The contents of the receive buffer. -/
def FsSys.buffer (s : FsSys) : Sector := s.io.rx.getD fun _ => 0

section Step

variable (info : FsRunningInfo) (getNextCluster : Sector → Word → Word) (disk : Word → Sector)

/-- What an event runs: the function, and what it does on the way. -/
def FsEvent.code (s : FsSys) : FsEvent → Option ((FsWorld × FsAction) × List FsEffect)
  | .start op a r1 _ =>
    let d := info.driver getNextCluster r1
    some (fsOpCode d op (a.stock s.world), fsOpEffects d op (a.stock s.world))
  | .call a r1 _ =>
    let d := info.driver getNextCluster r1
    s.due.map fun k => (fsCode d s.buffer k.1 k.2 (a.stock s.world),
      fsCodeEffects d s.buffer k.1 k.2 (a.stock s.world))
  | .irq | .spurious | .pump | .test _ | .ret _ => none

/-- The effects of a function are entered in the books. -/
def FsSys.book (s : FsSys) (w : FsWorld) (effects : List FsEffect) : FsSys where
  world := w
  io := (effects.filterMap (strayOf info)).foldl ioStray s.io
  due := none
  heap := effects.foldl applyHeap s.heap
  ops := effects.foldl OpLog.apply s.ops
  strays := s.strays ++ effects.filterMap (strayOf info)

/-- A function has run to its end, and submits a read, has a callback called, or returns. -/
def FsSys.act (s : FsSys) (req : Ptr) (resp : SdResponse) : FsAction → Option FsSys
  | .post lba k =>
    (sdStep disk (.submit req lba k.1 k.2 resp) s.io).map fun io =>
      { s with io := io, heap := s.heap.apply (.alloc .request req) }
  | .call k status => some { s with due := some (k, status) }
  | .stop => some s

/-- A function runs. -/
def FsSys.perform (s : FsSys) (req : Ptr) (resp : SdResponse)
    (run : (FsWorld × FsAction) × List FsEffect) : Option FsSys :=
  (s.book info run.1.1 run.2).act disk req resp run.1.2

/-- **One event.**  Clients call from outside the pump and from inside a callback, when no callback
is due; the pump waits for the callback to return. -/
def fsStep (e : FsEvent) (s : FsSys) : Option FsSys :=
  match e with
  | .start op a _ resp =>
    if s.due = none ∧ s.io.pump ≠ .loop ∧ op.Allowed s ∧ a.Fresh s then
      (e.code info getNextCluster s).bind (s.perform info disk a.req resp)
    else none
  | .call a _ resp =>
    if a.Fresh s then (e.code info getNextCluster s).bind (s.perform info disk a.req resp) else none
  | .irq => (sdStep disk .irq s.io).map fun io => { s with io := io }
  | .spurious => (sdStep disk .spurious s.io).map fun io => { s with io := io }
  | .pump =>
    if s.due = none then (sdStep disk .pump s.io).map fun io => { s with io := io } else none
  | .test status =>
    if s.due = none ∧ s.io.pump = .loop then
      if s.io.gSdIrqRing.head = s.io.gSdIrqRing.tail then
        some { s with io := ioSchedPumpTest s.io }
      -- a null pointer is followed
      else if s.io.gIoSched.inFlight = null then none
      else some { s with
        io := ioSchedPumpTest s.io
        due := some ((s.io.req s.io.gIoSched.inFlight).closure, status) }
    else none
  | .ret resp =>
    match s.io.pump with
    | .callback req =>
      if s.due = none then
        (sdStep disk (.ret resp) s.io).map fun io =>
          { s with io := io, heap := s.heap.apply (.free req) }
      else none
    | .outside | .loop => none

/-- After boot: no operation is under way. -/
def FsSys.init (w : FsWorld) (ring : IrqRing) (req : Ptr → IoReq FsCallback) (rx : Option Sector) :
    FsSys :=
  ⟨w, .init ring req rx, none, ⟨[], []⟩, ⟨fun _ => 0, 0, []⟩, []⟩

/-- The states reached by events that are all among `P`. -/
inductive FsReach (P : FsEvent → FsSys → Prop) : FsSys → Prop
  | init (w : FsWorld) (ring : IrqRing) (req : Ptr → IoReq FsCallback) (rx : Option Sector) :
      FsReach P (.init w ring req rx)
  | step {s s' : FsSys} {e : FsEvent} (h : FsReach P s) (hP : P e s)
      (hs : fsStep info getNextCluster disk e s = some s') : FsReach P s'

/-- The state after a script, as long as its events pass a test. -/
def fsScript (test : FsEvent → FsSys → Bool) (es : List FsEvent) (s : FsSys) : Option FsSys :=
  es.foldlM (fun s e => if test e s then fsStep info getNextCluster disk e s else none) s

end Step

theorem fsScript_reach {info : FsRunningInfo} {getNextCluster : Sector → Word → Word}
    {disk : Word → Sector} {P : FsEvent → FsSys → Prop} {test : FsEvent → FsSys → Bool}
    (htest : ∀ e s, test e s = true → P e s) (es : List FsEvent) {s s' : FsSys}
    (h : FsReach info getNextCluster disk P s)
    (hs : fsScript info getNextCluster disk test es s = some s') :
    FsReach info getNextCluster disk P s' := by
  induction es generalizing s with
  | nil => exact Option.some.inj hs ▸ h
  | cons e es ih =>
    rw [fsScript, List.foldlM_cons, Option.bind_eq_bind, Option.bind_eq_some_iff] at hs
    obtain ⟨t, ht, hs⟩ := hs
    rw [Option.ite_none_right_eq_some] at ht
    exact ih (h.step (htest e s ht.1) ht.2) hs

/-- After boot, with nothing in the world. -/
def bootSys : FsSys := .init emptyWorld ⟨0, 0, fun _ => 0⟩ (fun _ => ⟨0, .client, 0, 0⟩) none

/-- Addresses from a given one on. -/
def supplyAt (p : Ptr) : Supply := ⟨p, p + 0x100, p + 0x200, p + 0x300, 0x40000⟩

end RiscyOS
