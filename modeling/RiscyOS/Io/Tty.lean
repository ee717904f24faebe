import RiscyOS.Arch.Routines

/-!
# The TTY

The routines of `kernel/io/tty.s`, entered from the serial interrupts and from the system calls, and what
they are for.

* `TtyLink` — what the TTY is linked with.  `fifo_enqueue`, `fifo_dequeue` and the two that mark a process
  are called as they are in the source; the heap and the scheduler are parameters.
* `TtyStep` — an event: control enters one of the routines, with any registers, and comes back.
* `WritesDelivered`, `ReadsDelivered` — what the TTY is for.  The bytes of the write requests go out in
  order, and the bytes received go to the read requests in order; a request that has all its bytes is
  over, and its process is woken with the count.
-/

set_option autoImplicit false

namespace RiscyOS

open Memory Riscv

def echoQueueSize : Byte := 30
def rxQueueSize : Byte := 100

/-! ## What is called -/

/-- `fifo_enqueue`, with the registers it uses. -/
def callFifoEnqueue (s : Hart) : Hart :=
  let a0 := s.get .a0
  let t0 := word s.mem a0 fifoBase
  let t1 := lb s.mem a0 fifoHead
  let t2 := lb s.mem a0 fifoTail
  let t3 := lb s.mem a0 fifoSize
  (((((s.set .t0 t0).set .t1 t1).set .t2 ((t2 + 1) % t3)).set .t3 t3).set .t4 (t0 + t2)).store
    (fifoEnqueue s.mem a0 (s.get .a1))

/-- `fifo_dequeue`, with the registers it uses. -/
def callFifoDequeue (s : Hart) : Hart :=
  let a0 := s.get .a0
  let t0 := word s.mem a0 fifoBase
  let t1 := lb s.mem a0 fifoHead
  let t2 := lb s.mem a0 fifoTail
  let r := fifoDequeue s.mem a0
  if t1 = t2 then (((s.set .t0 t0).set .t1 t1).set .t2 t2).set .a0 r.2
  else
    let t2 := lb s.mem a0 fifoSize
    (((((s.set .t0 t0).set .t1 ((t1 + 1) % t2)).set .t2 t2).set .t3 (t1 + t0)).set .a0 r.2).store r.1

/-- `unblock_process`. -/
def callUnblockProcess (s : Hart) : Hart :=
  (s.set .t0 (stateReady.setWidth 32)).store (setByte s.mem (s.get .a0) pcbStatus stateReady)

/-- `block_current_process`, with the variable `current_pcb` at `p`. -/
def callBlockCurrentProcess (p : Word) (s : Hart) : Hart :=
  ((s.set .t0 (word s.mem p 0)).set .t1 (stateBlocked.setWidth 32)).store
    (setByte s.mem (word s.mem p 0) pcbStatus stateBlocked)

/-- What the TTY is linked with: the addresses of `TTY_INFO`, of `current_pcb` and of the program points,
the heap, the scheduler, and a bound for walks along a list of requests. -/
structure TtyLink where
  ttyInfo : Word
  currentPcb : Word
  point : Nat → Word
  kmalloc : Hart → Hart
  kfree : Hart → Hart
  schedule : Hart → Hart
  fuel : Nat

namespace TtyLink

variable (L : TtyLink)

/-- The routines below `tty_make_request`. -/
def base : Image Fn Sym where
  symbol
    | .ttyInfo => L.ttyInfo
    | .currentPcb => L.currentPcb
  point := L.point
  callee
    | .fifoEnqueue => callFifoEnqueue
    | .fifoDequeue => callFifoDequeue
    | .unblockProcess => callUnblockProcess
    | .blockCurrentProcess => callBlockCurrentProcess L.currentPcb
    | .kmalloc => L.kmalloc
    | .kfree => L.kfree
    | .schedule => L.schedule
    | .sdTailRead | .ttyMakeRequest | .ttyDequeueWrite => id

/-- `tty_make_request`. -/
def ttyMakeRequest (s : Hart) : Hart :=
  match L.base.run ttyMakeRequestCode L.fuel (ttyMakeRequestCode, s) with
  | some e => e.hart
  | none => s

/-- All of them. -/
def image : Image Fn Sym where
  symbol := L.base.symbol
  point := L.point
  callee
    | .ttyMakeRequest => L.ttyMakeRequest
    | f => L.base.callee f

/-- Where a routine called last comes back. -/
def finish (e : Exit Fn) : Hart :=
  match e.target with
  | some f => L.image.callee f e.hart
  | none => e.hart

/-- The struct that `TTY_INFO` points to. -/
def tty (m : Mem) : Ptr := word m L.ttyInfo 0

end TtyLink

/-- `tty_init`, with the three blocks it gets from the heap. -/
def TtyLink.ttyInit (L : TtyLink) (m : Mem) (tty rx echo : Ptr) : Mem :=
  let m := setWord m tty ttyWriteQueueHead 0
  let m := setWord m tty ttyReadQueueHead 0
  let m := setWord m L.ttyInfo 0 tty
  let m := setByte m tty (rxFifo + fifoHead) 0
  let m := setByte m tty (rxFifo + fifoTail) 0
  let m := setByte m tty (rxFifo + fifoSize) rxQueueSize
  let m := setWord m tty (rxFifo + fifoBase) rx
  let m := setByte m tty (echoFifo + fifoHead) 0
  let m := setByte m tty (echoFifo + fifoTail) 0
  let m := setByte m tty (echoFifo + fifoSize) echoQueueSize
  setWord m tty (echoFifo + fifoBase) echo

/-! ## Events -/

/-- What happens to the TTY; `reg` are the registers with which it is entered. -/
inductive TtyEvent where
  /-- `tty_enqueue_recieve`, with the character in `a0`. -/
  | recieve (reg : Reg → Word)
  /-- `tty_dequeue_write`. -/
  | transmit (reg : Reg → Word)
  /-- `ecall_write`, with the PCB in `a0`, the buffer in `a1` and the length in `a2`. -/
  | write (reg : Reg → Word)
  /-- `ecall_read`, likewise. -/
  | read (reg : Reg → Word)
  /-- Other parts of the kernel, and processes, leave this memory behind. -/
  | other (m : Mem)

/-- **Control enters a routine and comes back.** -/
def TtyStep (L : TtyLink) (code entry : Code) (reg : Reg → Word) (m : Mem) (t : Hart) : Prop :=
  ∃ e, L.image.Exits code entry ⟨reg, m⟩ e ∧ StackBalanced ⟨reg, m⟩ e ∧ t = L.finish e

/-- The kernel's stack, below where it has got to, is not in the TTY. -/
def TtyLink.StackOk (L : TtyLink) (reg : Reg → Word) (m : Mem) : Prop :=
  ∀ n ≤ 32, (Span.mk (reg .sp + -BitVec.ofNat 32 n) n).Apart ⟨L.ttyInfo, 4⟩ ∧
    (Span.mk (reg .sp + -BitVec.ofNat 32 n) n).Apart ⟨L.tty m, ttyStructSize⟩

/-- Others leave the TTY alone. -/
def TtyLink.LeftAlone (L : TtyLink) (m m' : Mem) : Prop :=
  (∀ x, (Span.mk L.ttyInfo 4).Has x → m' x = m x) ∧
    ∀ x, (Span.mk (L.tty m) ttyStructSize).Has x → m' x = m x

/-! ## What it is for -/

/-- A request on its way: who made it, how many bytes it was for, and where those left are to be taken
from or stored. -/
structure Request where
  pcb : Ptr
  count : Word
  left : List Word

/-- The request of the process at `pcb` for `count` bytes at its address `buf`, with `phys` the
translation of its addresses. -/
def Request.of (phys : Ptr → Word → Word) (pcb : Ptr) (buf count : Word) : Request where
  pcb := pcb
  count := count
  left := (List.range count.toNat).map fun i => phys pcb (buf + BitVec.ofNat 32 i)

/-- The process is ready, with the count in its `a0`. -/
def Request.Woken (r : Request) (m : Mem) : Prop :=
  byte m r.pcb pcbStatus = stateReady ∧ word m r.pcb tfA0 = r.count

/-- Nobody is woken from `m` to `m'` of those that wait. -/
def NoneWoken (q : List Request) (m m' : Mem) : Prop :=
  ∀ r ∈ q, byte m' r.pcb pcbStatus = byte m r.pcb pcbStatus

/-- The requests that are linked up from `p`. -/
def Queued (m : Mem) : Ptr → List Request → Prop
  | p, [] => p = null
  | p, r :: q => p ≠ null ∧ word m p procPcb = r.pcb ∧ Queued m (word m p rwNextRequest) q

/-- The write requests on their way are `q`. -/
def TtyLink.Writes (L : TtyLink) (m : Mem) (q : List Request) : Prop :=
  Queued m (word m (L.tty m) ttyWriteQueueHead) q

/-- The read requests that wait are `q`, and the bytes in the RX FIFO are `bs`. -/
def TtyLink.Reads (L : TtyLink) (m : Mem) (q : List Request) (bs : List Byte) : Prop :=
  Queued m (word m (L.tty m) ttyReadQueueHead) q ∧ Represents m (L.tty m + BitVec.ofNat 32 rxFifo) bs

variable (L : TtyLink) (phys : Ptr → Word → Word)

/-- **The write requests `q` are served in order**: a transmit interrupt gets an echo if there is one,
and otherwise the next byte of the oldest request.  With its last byte that request is over. -/
def WritesDelivered : List TtyEvent → Mem → List Request → Prop
  | [], m, q => L.Writes m q
  | .recieve reg :: es, m, q => L.Writes m q ∧ (L.StackOk reg m →
    ∃ t, TtyStep L ttyRecieveHalf ttyEnqueueRecieveCode reg m t ∧ NoneWoken q m t.mem ∧
      WritesDelivered es t.mem q)
  | .read reg :: es, m, q => L.Writes m q ∧ (L.StackOk reg m →
    ∃ t, TtyStep L ecallReadCode ecallReadCode reg m t ∧ NoneWoken q m t.mem ∧
      WritesDelivered es t.mem q)
  | .write reg :: es, m, q => L.Writes m q ∧ (L.StackOk reg m → reg .a2 ≠ 0 →
    ∃ t, TtyStep L ecallWriteCode ecallWriteCode reg m t ∧ NoneWoken q m t.mem ∧
      WritesDelivered es t.mem (q ++ [.of phys (reg .a0) (reg .a1) (reg .a2)]))
  | .transmit reg :: es, m, q => L.Writes m q ∧ (L.StackOk reg m →
    ∃ t, TtyStep L ttyDequeueWriteCode ttyDequeueWriteCode reg m t ∧
      let echo := (fifoDequeue m (L.tty m + BitVec.ofNat 32 echoFifo)).2
      if echo ≠ 0 then t.get .a0 = echo ∧ NoneWoken q m t.mem ∧ WritesDelivered es t.mem q
      else match q with
        | [] => t.get .a0 = 0 ∧ WritesDelivered es t.mem []
        | ⟨_, _, []⟩ :: _ => False
        | ⟨pcb, count, [x]⟩ :: q => t.get .a0 = (m x).setWidth 32 ∧
          Request.Woken ⟨pcb, count, []⟩ t.mem ∧ NoneWoken q m t.mem ∧ WritesDelivered es t.mem q
        | ⟨pcb, count, x :: xs⟩ :: q => t.get .a0 = (m x).setWidth 32 ∧
          NoneWoken (⟨pcb, count, xs⟩ :: q) m t.mem ∧ WritesDelivered es t.mem (⟨pcb, count, xs⟩ :: q))
  | .other m' :: es, m, q => L.Writes m q ∧ (L.LeftAlone m m' → WritesDelivered es m' q)

/-- **The bytes received go to the read requests `q` in order.**  While nobody waits they are kept in
the RX FIFO, as `bs`, for the next request; once it is full, nothing is promised. -/
def ReadsDelivered : List TtyEvent → Mem → List Request → List Byte → Prop
  | [], m, q, bs => L.Reads m q bs
  | .recieve reg :: es, m, q, bs => L.Reads m q bs ∧ (L.StackOk reg m →
    if reg .a0 = backspace then
      ∃ t, TtyStep L ttyRecieveHalf ttyEnqueueRecieveCode reg m t ∧ NoneWoken q m t.mem ∧
        ReadsDelivered es t.mem q bs
    else match q with
      | [] => bs.length < (byte m (L.tty m + BitVec.ofNat 32 rxFifo) fifoSize).toNat - 1 →
        ∃ t, TtyStep L ttyRecieveHalf ttyEnqueueRecieveCode reg m t ∧
          ReadsDelivered es t.mem [] (bs ++ [(reg .a0).setWidth 8])
      | ⟨_, _, []⟩ :: _ => False
      | ⟨pcb, count, [x]⟩ :: q =>
        ∃ t, TtyStep L ttyRecieveHalf ttyEnqueueRecieveCode reg m t ∧ t.mem x = (reg .a0).setWidth 8 ∧
          Request.Woken ⟨pcb, count, []⟩ t.mem ∧ NoneWoken q m t.mem ∧ ReadsDelivered es t.mem q bs
      | ⟨pcb, count, x :: xs⟩ :: q =>
        ∃ t, TtyStep L ttyRecieveHalf ttyEnqueueRecieveCode reg m t ∧ t.mem x = (reg .a0).setWidth 8 ∧
          NoneWoken (⟨pcb, count, xs⟩ :: q) m t.mem ∧ ReadsDelivered es t.mem (⟨pcb, count, xs⟩ :: q) bs)
  | .read reg :: es, m, q, bs => L.Reads m q bs ∧ (L.StackOk reg m → reg .a2 ≠ 0 →
    ∃ t, TtyStep L ecallReadCode ecallReadCode reg m t ∧ NoneWoken q m t.mem ∧
      let r := Request.of phys (reg .a0) (reg .a1) (reg .a2)
      (∀ p ∈ r.left.zip bs, t.mem p.1 = p.2) ∧
        if r.left.length ≤ bs.length then
          r.Woken t.mem ∧ ReadsDelivered es t.mem q (bs.drop r.left.length)
        else ReadsDelivered es t.mem (q ++ [{ r with left := r.left.drop bs.length }]) [])
  | .write reg :: es, m, q, bs => L.Reads m q bs ∧ (L.StackOk reg m →
    ∃ t, TtyStep L ecallWriteCode ecallWriteCode reg m t ∧ NoneWoken q m t.mem ∧
      ReadsDelivered es t.mem q bs)
  | .transmit reg :: es, m, q, bs => L.Reads m q bs ∧ (L.StackOk reg m →
    ∃ t, TtyStep L ttyDequeueWriteCode ttyDequeueWriteCode reg m t ∧ NoneWoken q m t.mem ∧
      ReadsDelivered es t.mem q bs)
  | .other m' :: es, m, q, bs => L.Reads m q bs ∧ (L.LeftAlone m m' → ReadsDelivered es m' q bs)

end RiscyOS
