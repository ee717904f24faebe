import RiscyOS.Process.Table
import RiscyOS.Io.Fifo
import RiscyOS.Lib.Riscv

/-!
# Assembly of the kernel, line by line

The routines of `kernel/io/tty.s`, `kernel/io/io.s`, `drivers/serial/serial.s` and `kernel/fs/fs.s` that
`RiscyOS.Arch.Frames`, `RiscyOS.Io.TtyRuns` and `RiscyOS.Fs.Fat` are about, as lists of statements.
-/

set_option autoImplicit false

namespace RiscyOS

open Memory Riscv

/-! ## Names -/

/-- The routines called by name. -/
inductive Fn where
  | sdTailRead
  | ttyMakeRequest
  | ttyDequeueWrite
  | fifoEnqueue
  | fifoDequeue
  | kmalloc
  | kfree
  | blockCurrentProcess
  | unblockProcess
  | schedule
  deriving DecidableEq

/-- The symbols whose address is taken. -/
inductive Sym where
  | ttyInfo
  | currentPcb
  deriving DecidableEq

inductive Lbl where
  | getNextCluster
  | ecallRead
  | ecallWrite
  | schedule
  | irsqSerialWrite
  | irsqSerialWriteEnd
  | ttyEchoBackspace
  | ttyEchoNewLine
  | ttyEnqueueRecieve
  | userReadRequestFufilled
  | storeRxFifo
  | ttyDequeueWrite
  | userWriteRequestFufilled
  | ttyDequeueWriteEnd
  | ttyMakeRequest
  | rwWalkList
  | rwAddToBack
  | ttyMakeRequestFail
  deriving DecidableEq

/-- The lines of a routine. -/
abbrev Code : Type := List (Stmt Fn Sym Lbl)

/-! The addresses of devices, the characters treated apart, and the offsets of `include/tty/`. -/

def spiBase : Word := 0x20000
def spiRxRam : Word := 0x400
def serialPort : Word := 0x10500

def backspace : Word := 8
def newLine : Word := 10
def carriageReturn : Word := 13
def space : Word := 32

def rxFifo : Nat := 0
def echoFifo : Nat := 8
def ttyWriteQueueHead : Nat := 16
def ttyReadQueueHead : Nat := 20
def ttyStructSize : Nat := 24

def userBuffer : Nat := 0
def rwNextRequest : Nat := 4
def procPcb : Nat := 8
def rwBytesRequested : Nat := 12
def rwBytesFufilled : Nat := 13
def rwRequestSize : Nat := 16

/-! ## The file system -/

/-- `get_next_cluster`. -/
def getNextClusterCode : Code :=
  [.label .getNextCluster,
    .op (.addi .sp .sp (-8)),
    .op (.sw .a0 0 .sp),
    .op (.sw .ra 4 .sp),
    .call .sdTailRead,
    .op (.li .t0 (spiBase + spiRxRam)),
    .op (.li .t1 512),
    .op (.lw .t2 0 .sp),
    .op (.rem .t2 .t2 .t1),
    .op (.add .t1 .t0 .t2),
    .op (.lw .a0 0 .t1),
    .op (.lw .ra 0 .sp),
    .op (.addi .sp .sp 8),
    .ret]

/-! ## The system calls -/

/-- `ecall_write`.  A branch to a routine elsewhere leaves through a tail call. -/
def ecallWriteCode : Code :=
  [.label .ecallWrite,
    .op (.addi .sp .sp (-4)),
    .op (.sw .ra 0 .sp),
    .op (.la .a3 .ttyInfo),
    .op (.lw .a3 0 .a3),
    .op (.addi .a3 .a3 (BitVec.ofNat 32 ttyWriteQueueHead)),
    .call .ttyMakeRequest,
    .op (.lw .ra 0 .sp),
    .op (.addi .sp .sp 4),
    .beqz .a0 .schedule,
    .op (.la .t0 .currentPcb),
    .op (.lw .t0 0 .t0),
    .op (.sw .zero tfA0 .t0),
    .ret,
    .label .schedule,
    .tail .schedule]

/-- `ecall_read`. -/
def ecallReadCode : Code := [.label .ecallRead, .call .ttyMakeRequest, .ret]

/-! ## The serial port -/

/-- `irsq_serial_write`. -/
def irsqSerialWriteCode : Code :=
  [.label .irsqSerialWrite,
    .op (.addi .sp .sp (-4)),
    .op (.sw .ra 0 .sp),
    .call .ttyDequeueWrite,
    .beqz .a0 .irsqSerialWriteEnd,
    .op (.li .t0 serialPort),
    .op (.sb .a0 0 .t0),
    .label .irsqSerialWriteEnd,
    .ret]

/-! ## The TTY -/

def storeRxFifoCode : Code :=
  [.label .storeRxFifo,
    .op (.addi .a0 .a0 (-BitVec.ofNat 32 echoFifo)),
    .op (.addi .sp .sp (-4)),
    .op (.sw .ra 0 .sp),
    .tail .fifoEnqueue]

def userReadRequestFufilledCode : Code :=
  [.label .userReadRequestFufilled,
    .op (.lw .t4 procPcb .t0),
    .op (.sw .t2 tfA0 .t4),
    .op (.mv .a0 .t4),
    .call .unblockProcess,
    .op (.addi .sp .sp (-4)),
    .op (.sw .ra 0 .sp),
    .tail .kfree]

/-- What `tty_enqueue_recieve` does after the echo of a character like any other. -/
def ttyRecieveCode : Code :=
  [.op (.lw .t0 (ttyReadQueueHead - echoFifo) .a0),
    .op (.lw .t0 0 .t0),
    .beqz .t0 .storeRxFifo,
    .op (.lw .t1 userBuffer .t0),
    .op (.sb .a1 0 .t1),
    .op (.lbu .t2 rwBytesFufilled .t0),
    .op (.lbu .t3 rwBytesRequested .t0),
    .op (.addi .t2 .t2 1),
    .beq .t2 .t3 .userReadRequestFufilled,
    .op (.addi .t1 .t1 1),
    .op (.sw .t1 userBuffer .t0),
    .op (.sb .t2 rwBytesFufilled .t0),
    .op (.addi .sp .sp (-4)),
    .op (.sw .ra 0 .sp),
    .ret] ++ userReadRequestFufilledCode ++ storeRxFifoCode

def ttyEnqueueRecieveCode : Code :=
  [.label .ttyEnqueueRecieve,
    .op (.addi .sp .sp (-4)),
    .op (.sw .ra 0 .sp),
    .op (.mv .a1 .a0),
    .op (.la .a0 .ttyInfo),
    .op (.lw .a0 0 .a0),
    .op (.addi .a0 .a0 (BitVec.ofNat 32 echoFifo)),
    .op (.li .t0 backspace),
    .beq .a1 .t0 .ttyEchoBackspace,
    .op (.li .t0 newLine),
    .beq .a1 .t0 .ttyEchoNewLine,
    .call .fifoEnqueue] ++ ttyRecieveCode

def ttyEchoNewLineCode : Code :=
  [.label .ttyEchoNewLine,
    .op (.li .a1 carriageReturn),
    .call .fifoEnqueue,
    .op (.li .a1 newLine),
    .op (.lw .ra 0 .sp),
    .op (.addi .sp .sp 4),
    .tail .fifoEnqueue] ++ ttyEnqueueRecieveCode

/-- The receiving half of `tty.s`.  `tty_enqueue_recieve` is entered in its middle. -/
def ttyRecieveHalf : Code :=
  [.label .ttyEchoBackspace,
    .call .fifoEnqueue,
    .op (.li .a1 space),
    .call .fifoEnqueue,
    .op (.li .a1 backspace),
    .op (.lw .ra 0 .sp),
    .op (.addi .sp .sp 4),
    .tail .fifoEnqueue] ++ ttyEchoNewLineCode

/-- Where all of `tty_dequeue_write` comes together. -/
def ttyDequeueWriteEndCode : Code :=
  [.label .ttyDequeueWriteEnd,
    .op (.lw .s0 0 .sp),
    .op (.lw .ra 4 .sp),
    .op (.addi .sp .sp 8),
    .ret]

/-- `tty_dequeue_write`.  `lw a0, PROC_PCB` has no base register, and loads from the address that the
offset is. -/
def ttyDequeueWriteCode : Code :=
  [.label .ttyDequeueWrite,
    .op (.addi .sp .sp (-8)),
    .op (.sw .s0 0 .sp),
    .op (.sw .ra 4 .sp),
    .op (.la .t0 .ttyInfo),
    .op (.lw .s0 0 .t0),
    .op (.addi .a0 .s0 (BitVec.ofNat 32 echoFifo)),
    .call .fifoDequeue,
    .bnez .a0 .ttyDequeueWriteEnd,
    .op (.lw .a0 ttyWriteQueueHead .s0),
    .beqz .a0 .ttyDequeueWriteEnd,
    .op (.lw .t0 userBuffer .a0),
    .op (.lbu .t1 rwBytesFufilled .a0),
    .op (.lbu .t2 rwBytesRequested .a0),
    .op (.addi .t1 .t1 1),
    .beq .t1 .t2 .userWriteRequestFufilled,
    .op (.lbu .s0 0 .t0),
    .op (.addi .t0 .t0 1),
    .op (.sb .t0 userBuffer .a0),
    .op (.sb .t1 rwBytesFufilled .a0),
    .op (.mv .a0 .s0),
    .j .ttyDequeueWriteEnd,
    .label .userWriteRequestFufilled,
    .op (.lw .t2 rwNextRequest .a0),
    .op (.la .t3 .ttyInfo),
    .op (.sw .t2 0 .t3),
    .op (.lbu .s0 0 .t0),
    .op (.addi .sp .sp (-4)),
    .op (.sw .s1 0 .sp),
    .op (.mv .s1 .a0),
    .op (.lw .a0 procPcb .zero),
    .op (.sw .t1 tfA0 .a0),
    .call .unblockProcess,
    .op (.mv .a0 .s1),
    .op (.addi .sp .sp 4),
    .call .kfree,
    .op (.mv .a0 .s0)] ++ ttyDequeueWriteEndCode

/-- `tty_make_request`. -/
def ttyMakeRequestCode : Code :=
  [.label .ttyMakeRequest,
    .op (.addi .sp .sp (-16)),
    .op (.sw .a0 0 .sp),
    .op (.sw .a1 4 .sp),
    .op (.sw .a2 8 .sp),
    .op (.sw .ra 12 .sp),
    .blez .a1 .ttyMakeRequestFail,
    .op (.li .a0 (BitVec.ofNat 32 rwRequestSize)),
    .call .kmalloc,
    .blez .a1 .ttyMakeRequestFail,
    .op (.lw .t0 0 .sp),
    .op (.sw .t0 userBuffer .a0),
    .op (.lw .a1 4 .sp),
    .op (.sb .a1 rwBytesRequested .a0),
    .op (.sb .zero rwBytesFufilled .a0),
    .op (.sw .zero rwNextRequest .a0),
    .op (.la .t0 .currentPcb),
    .op (.lw .t0 0 .t0),
    .op (.sw .t0 procPcb .a0),
    .call .blockCurrentProcess,
    .op (.lw .t0 8 .sp),
    .label .rwWalkList,
    .op (.lw .t1 0 .t0),
    .beqz .t1 .rwAddToBack,
    .op (.mv .t0 .t1),
    .op (.addi .t0 .t0 (BitVec.ofNat 32 rwNextRequest)),
    .j .rwWalkList,
    .label .rwAddToBack,
    .op (.sw .a0 0 .t0),
    .label .ttyMakeRequestFail,
    .op (.mv .a0 .zero),
    .op (.lw .ra 12 .sp),
    .op (.addi .sp .sp 16),
    .ret]

end RiscyOS
