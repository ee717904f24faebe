import RiscyOS.Lib.Memory

/-!
# Process control blocks

The records of `include/process.h` that the kernel shares between its subsystems: a memory region
(`memory_region_t`), and the fields of a `pcb_t` that the context switch, the scheduler, the MMU
driver and the loader read or write.  The trap frame, the process name and the parent/exit fields
are not used by any of these and are left out.

Pointers are 32-bit words, and `0` is `NULL`.  The PCBs come from a slab cache and the regions from
the kernel heap, so distinct pointers name disjoint records; the machine model keeps one map from
pointers to records for each kind.
-/

set_option autoImplicit false

namespace RiscyOS

open Memory

/-- A pointer, as the kernel passes it around. -/
abbrev Ptr := Word

instance : LawfulBEq Ptr := inferInstance

/-- The null pointer. -/
def null : Ptr := 0

/-- `memory_region_t`: a run of physical user memory and the number of processes using it. -/
structure MemoryRegion where
  physicalBase : Word
  regionSize : Word
  referenceCount : Word
  deriving DecidableEq, Repr

/-! The scheduling state is one byte.  The assembly sources use the constants of
`include/process.inc`, the C sources those of `include/process.h`. -/

/-- `STATE_READY`. -/
def stateReady : Byte := 1

/-- `STATE_RUNNING`. -/
def stateRunning : Byte := 2

/-- `STATE_BLOCKED`. -/
def stateBlocked : Byte := 3

/-- The fields of a `pcb_t` that the modelled code uses. -/
structure Pcb where
  mepc : Word
  mstatus : Word
  mscratch : Word
  next : Ptr
  brk : Word
  ptextMemoryRegion : Ptr
  pdataMemoryRegion : Ptr
  parentDirCluster : Word
  pdataStart : Word
  heapStart : Word
  pstatus : Byte
  deriving DecidableEq, Repr

/-- A process control block with every word clear. -/
def Pcb.zero : Pcb := ⟨0, 0, 0, 0, 0, 0, 0, 0, 0, 0, 0⟩

end RiscyOS
