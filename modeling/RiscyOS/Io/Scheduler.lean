import RiscyOS.Lib.Linked
import RiscyOS.Lib.Fair
import RiscyOS.Process

/-!
# The I/O scheduler

`kernel/io/io_scheduler.c` and the completion half of it, `drivers/spi/sd_irsq.c`.  Requests are
queued through their `next` fields; one at a time is issued to the card; the completion interrupt
puts a status on a ring of eight; and the timer calls `io_sched_pump`, which takes the statuses off
the ring, hands each to the callback of the request in flight, and issues the next request.

A callback may submit as many requests as it likes, and does so in the middle of the pump, after
the scheduler has gone idle and before the pump has looked at the queue again.  So the pump is not
one step here.  `IoState.pump` is where its control is: outside, at the test of the loop, or inside
the callback of some request; and `ioStep` is what one event does, so that a run is any sequence of
events at all, submissions, interrupts, calls of the pump and returns from callbacks in any order.

Type `κ` stands for the callback functions and `σ` for the contents of a sector.  The card is the
parameter `disk`: one read at a time, `reading` until its interrupt, and the receive buffer `rx`
holds the sector from the interrupt until the next read is started.
-/

set_option autoImplicit false

namespace RiscyOS

open Memory

/-! ## The data -/

/-- `io_sched_req_t`. -/
structure IoReq (κ : Type) where
  lba : Word
  callback : κ
  ctx : Ptr
  next : Ptr
  deriving DecidableEq, Repr

/-- `sched_state_t`. -/
inductive SchedState
  | idle
  | busy
  deriving DecidableEq, Repr

/-- `io_scheduler_t`. -/
structure IoScheduler where
  queueHead : Ptr
  queueTail : Ptr
  inFlight : Ptr
  state : SchedState
  deriving DecidableEq, Repr

/-- `IRQ_RING_SIZE`. -/
def irqRingSize : Byte := 8

/-- `irq_completion_ring_t`. -/
structure IrqRing where
  head : Byte
  tail : Byte
  status : Byte → Byte

/-- Where a ring counter points. -/
def irqIdx (counter : Byte) : Byte := counter &&& (irqRingSize - 1)

/-- `SD_STATE_T`. -/
inductive SdState
  | idle
  | waitRead
  | waitWrite
  | error
  deriving DecidableEq, Repr

/-- Where the control of `io_sched_pump` is. -/
inductive PumpPc
  | outside
  | loop
  | callback (req : Ptr)
  deriving DecidableEq, Repr

/-- One invocation of a callback, with what the receive buffer held at the time. -/
structure IoCall (κ σ : Type) where
  callback : κ
  ctx : Ptr
  status : Byte
  rx : Option σ
  deriving DecidableEq, Repr

/-- What has happened so far: the requests submitted, the reads started, the number of completion
interrupts, and the callbacks invoked, each in order. -/
structure IoLog (κ σ : Type) where
  submitted : List (Word × κ × Ptr)
  issued : List Word
  completions : Nat
  called : List (IoCall κ σ)

/-- The scheduler, the ring, the card and the pump. -/
structure IoState (κ σ : Type) where
  gIoSched : IoScheduler
  gSdIrqRing : IrqRing
  sdState : SdState
  /-- The request structures by address. -/
  req : Ptr → IoReq κ
  /-- The sector the card is transferring. -/
  reading : Option Word
  /-- The receive buffer, `none` while a transfer is going on. -/
  rx : Option σ
  pump : PumpPc
  /-- The addresses the scheduler has been given and has not freed. -/
  held : List Ptr
  log : IoLog κ σ

section Model

variable {κ σ : Type}

/-! ## The functions -/

/-- `sd_start_read`: the card starts on the sector, and the transfer runs over the buffer. -/
def sdStartRead (lba : Word) (s : IoState κ σ) : IoState κ σ :=
  { s with
    sdState := .waitRead
    reading := some lba
    rx := none
    log := { s.log with issued := s.log.issued ++ [lba] } }

/-- `io_sched_issue_next`. -/
def ioSchedIssueNext (s : IoState κ σ) : IoState κ σ :=
  if s.gIoSched.queueHead = null then s else
    let req := s.gIoSched.queueHead
    let s := { s with gIoSched.queueHead := (s.req req).next }
    let s := if s.gIoSched.queueHead = null then { s with gIoSched.queueTail := null } else s
    let s := { s with gIoSched.inFlight := req, gIoSched.state := .busy }
    sdStartRead (s.req req).lba s

/-- A store to a `next` field. -/
def IoState.setNext (s : IoState κ σ) (p n : Ptr) : IoState κ σ :=
  { s with req := fun a => if a = p then { s.req a with next := n } else s.req a }

/-- `io_sched_submit`. -/
def ioSchedSubmit (req : Ptr) (s : IoState κ σ) : IoState κ σ :=
  let s := s.setNext req null
  let s := if s.gIoSched.queueTail ≠ null then s.setNext s.gIoSched.queueTail req
    else { s with gIoSched.queueHead := req }
  let s := { s with gIoSched.queueTail := req }
  if s.gIoSched.state = .idle then ioSchedIssueNext s else s

/-- What every submitter does: fill in a request at an address `kmalloc` gave it, and submit it. -/
def ioPost (req : Ptr) (lba : Word) (callback : κ) (ctx : Ptr) (s : IoState κ σ) : IoState κ σ :=
  ioSchedSubmit req { s with
    req := fun a => if a = req then ⟨lba, callback, ctx, (s.req a).next⟩ else s.req a
    held := req :: s.held
    log := { s.log with submitted := s.log.submitted ++ [(lba, callback, ctx)] } }

/-- `io_sched_pump`, from the test of the loop to the call of the callback. -/
def ioSchedPumpTest (s : IoState κ σ) : IoState κ σ :=
  if s.gSdIrqRing.head ≠ s.gSdIrqRing.tail then
    let status := s.gSdIrqRing.status (irqIdx s.gSdIrqRing.tail)
    let s := { s with gSdIrqRing.tail := s.gSdIrqRing.tail + 1 }
    let req := s.gIoSched.inFlight
    let s := { s with gIoSched.inFlight := null, gIoSched.state := .idle }
    { s with
      pump := .callback req
      log := { s.log with
        called := s.log.called ++ [⟨(s.req req).callback, (s.req req).ctx, status, s.rx⟩] } }
  else { s with pump := .outside }

/-- `io_sched_pump`, from the return of the callback back to the test of the loop. -/
def ioSchedPumpReturn (req : Ptr) (s : IoState κ σ) : IoState κ σ :=
  -- kfree(req)
  let s := { s with held := s.held.filter (· ≠ req) }
  let s := if s.gIoSched.state = .idle ∧ s.gIoSched.queueHead ≠ null then ioSchedIssueNext s else s
  { s with pump := .loop }

/-- `sd_tail_read`, which leaves the card idle. -/
def sdTailRead (s : IoState κ σ) : IoState κ σ := { s with sdState := .idle }

/-- `sd_tail_write`, of which the scheduler sees no more than of `sd_tail_read`: whatever the card
answers, it is left idle. -/
def sdTailWrite (s : IoState κ σ) : IoState κ σ := { s with sdState := .idle }

/-- `sd_irsq_handler`. -/
def sdIrsqHandler (s : IoState κ σ) : IoState κ σ :=
  let s := match s.sdState with
    | .waitRead => sdTailRead s
    | .waitWrite => sdTailWrite s
    | .idle | .error => s
  let idx := irqIdx s.gSdIrqRing.head
  { s with gSdIrqRing :=
      ⟨s.gSdIrqRing.head + 1, s.gSdIrqRing.tail,
        fun i => if i = idx then 0 else s.gSdIrqRing.status i⟩ }

/-! ## Events -/

/-- What can happen next. -/
inductive IoEvent (κ : Type)
  /-- A request is filled in at `req` and submitted. -/
  | submit (req : Ptr) (lba : Word) (callback : κ) (ctx : Ptr)
  /-- The read in progress completes and raises its interrupt. -/
  | irq
  /-- `io_sched_pump` is called. -/
  | pump
  /-- The pump tests its loop, and goes on to the callback or leaves. -/
  | test
  /-- The callback returns. -/
  | ret
  deriving DecidableEq, Repr

/-- **One event**, or `none` where it cannot happen: requests are submitted from outside the pump
or from inside a callback, at an address that is not null and not in use; an interrupt comes for a
read in progress and for nothing else; callbacks do not call the pump. -/
def ioStep (disk : Word → σ) (e : IoEvent κ) (s : IoState κ σ) : Option (IoState κ σ) :=
  match e with
  | .submit req lba callback ctx =>
    if s.pump ≠ .loop ∧ req ≠ null ∧ req ∉ s.held then some (ioPost req lba callback ctx s)
    else none
  | .irq =>
    match s.reading with
    | some lba =>
      some { sdIrsqHandler { s with reading := none, rx := some (disk lba) } with
        log := { s.log with completions := s.log.completions + 1 } }
    | none => none
  | .pump => if s.pump = .outside then some { s with pump := .loop } else none
  | .test => if s.pump = .loop then some (ioSchedPumpTest s) else none
  | .ret =>
    match s.pump with
    | .callback req => some (ioSchedPumpReturn req s)
    | _ => none

/-- After `fat_init` has cleared `g_io_sched`: nothing queued, nothing in flight, the ring as it
was left. -/
def IoState.init (ring : IrqRing) (req : Ptr → IoReq κ) (rx : Option σ) : IoState κ σ where
  gIoSched := ⟨null, null, null, .idle⟩
  gSdIrqRing := ⟨ring.head, ring.head, ring.status⟩
  sdState := .idle
  req := req
  reading := none
  rx := rx
  pump := .outside
  held := []
  log := ⟨[], [], 0, []⟩

/-- The states reached by any sequence of events. -/
inductive IoReach (disk : Word → σ) : IoState κ σ → Prop
  | init (ring : IrqRing) (req : Ptr → IoReq κ) (rx : Option σ) :
      IoReach disk (.init ring req rx)
  | step {s s' : IoState κ σ} {e : IoEvent κ} (h : IoReach disk s) (hs : ioStep disk e s = some s') :
      IoReach disk s'

end Model

end RiscyOS
