import RiscyOS.Lib.Halves
import RiscyOS.Lib.Riscv

/-!
# The timer

`arch/riscv/timer.s`.  The timer counts all the time, and interrupts when it reaches `mtimecmp`.  Both
are registers of 64 bits behind four words of the system block.  `timer_interrupt` reads the timer, adds
an interval and writes the result, a half at a time; any number of ticks may pass before each of its
instructions.

While the new time is being written, the high half is all ones, so `mtimecmp` is never too early on the
way (`rearm_spec`).  The two halves that are read are those of different moments, though, and the low one
is read first (`timer_rearmed_iff`).

The rest of `timer_interrupt`, which counts the interrupts and runs the pump and the scheduler, has no
business with the timer and is left out.
-/

set_option autoImplicit false

namespace RiscyOS

open Memory Riscv Halves

/-! ## The system block -/

def systemBase : Word := 0x00010700
def systemLowMtime : Nat := 16
def systemHighMtime : Nat := 20
def systemLowMtimecmp : Nat := 24
def systemHighMtimecmp : Nat := 28

/-- `TIMER_INTERVAL_MS`. -/
def timerIntervalMs : Nat := 5

/-- `TIMER_INTERVAL`. -/
def timerInterval : Word := BitVec.ofNat 32 (timerIntervalMs * 1000000 / 25)

/-- The hart and the timer. -/
structure TimerHart extends Hart where
  mtime : BitVec 64
  mtimecmp : BitVec 64

namespace TimerHart

/-- A load, from a register of the timer or from memory. -/
def load (s : TimerHart) (a : Word) : Word :=
  if a = systemBase + BitVec.ofNat 32 systemLowMtime then low s.mtime
  else if a = systemBase + BitVec.ofNat 32 systemHighMtime then high s.mtime
  else if a = systemBase + BitVec.ofNat 32 systemLowMtimecmp then low s.mtimecmp
  else if a = systemBase + BitVec.ofNat 32 systemHighMtimecmp then high s.mtimecmp
  else load32 s.mem a

/-- A store.  The halves of `mtimecmp` are written one at a time, and nobody writes `mtime`. -/
def store (s : TimerHart) (a v : Word) : TimerHart :=
  if a = systemBase + BitVec.ofNat 32 systemLowMtimecmp then
    { s with mtimecmp := join (high s.mtimecmp) v }
  else if a = systemBase + BitVec.ofNat 32 systemHighMtimecmp then
    { s with mtimecmp := join v (low s.mtimecmp) }
  else { s with mem := store32 s.mem a v }

/-- A register is written. -/
def set (s : TimerHart) (r : Reg) (v : Word) : TimerHart := { s with toHart := s.toHart.set r v }

/-- Time passes. -/
def wait (n : Nat) (s : TimerHart) : TimerHart := { s with mtime := s.mtime + BitVec.ofNat 64 n }

end TimerHart

/-- The instructions of the routine. -/
inductive TimerOp where
  | li (rd : Reg) (imm : Word)
  | lw (rd : Reg) (offset : Nat) (base : Reg)
  | add (rd rs rt : Reg)
  | sltu (rd rs rt : Reg)
  | sw (rs : Reg) (offset : Nat) (base : Reg)

/-- One instruction. -/
def TimerOp.exec : TimerOp → TimerHart → TimerHart
  | .li rd imm, s => s.set rd imm
  | .lw rd offset base, s => s.set rd (s.load (s.get base + BitVec.ofNat 32 offset))
  | .add rd rs rt, s => s.set rd (s.get rs + s.get rt)
  | .sltu rd rs rt, s => s.set rd (if s.get rs < s.get rt then 1 else 0)
  | .sw rs offset base, s => s.store (s.get base + BitVec.ofNat 32 offset) (s.get rs)

/-- The first eleven instructions of `timer_interrupt`, which are those of `mtime_init` too. -/
def rearmCode : List TimerOp :=
  [.li .t0 timerInterval,
    .li .t5 systemBase,
    .lw .t1 systemLowMtime .t5,
    .lw .t2 systemHighMtime .t5,
    .add .t3 .t1 .t0,
    .sltu .t4 .t3 .t1,
    .add .t2 .t2 .t4,
    .li .t4 (-1),
    .sw .t4 systemHighMtimecmp .t5,
    .sw .t3 systemLowMtimecmp .t5,
    .sw .t2 systemHighMtimecmp .t5]

/-- The states after each instruction.  Before the `i`-th, `ticks i` ticks pass. -/
def timerRun : List TimerOp → (Nat → Nat) → TimerHart → List TimerHart
  | [], _, _ => []
  | op :: code, ticks, s =>
    op.exec (s.wait (ticks 0)) :: timerRun code (fun i => ticks (i + 1)) (op.exec (s.wait (ticks 0)))

/-- The time after the ticks before the first `n` instructions. -/
def mtimeAt (ticks : Nat → Nat) (s : TimerHart) : Nat → BitVec 64
  | 0 => s.mtime
  | n + 1 => mtimeAt ticks s n + BitVec.ofNat 64 (ticks n)

/-- When the low half of the time is read. -/
def firstRead (ticks : Nat → Nat) (s : TimerHart) : BitVec 64 := mtimeAt ticks s 3

/-- When the high half is. -/
def lastRead (ticks : Nat → Nat) (s : TimerHart) : BitVec 64 := mtimeAt ticks s 4

/-- The time that is set: an interval after what has been read. -/
def rearmedTo (ticks : Nat → Nat) (s : TimerHart) : BitVec 64 :=
  join (high (lastRead ticks s)) (low (firstRead ticks s)) + timerInterval.setWidth 64

/-- How the routine leaves the timer. -/
def timerInterrupt (ticks : Nat → Nat) (s : TimerHart) : TimerHart :=
  (timerRun rearmCode ticks s).getLastD s

section Rearm

variable (ticks : Nat → Nat) (s : TimerHart)

/-- **What the routine does to `mtimecmp`**, instruction by instruction. -/
theorem rearm_spec : (timerRun rearmCode ticks s).map TimerHart.mtimecmp =
    List.replicate 8 s.mtimecmp ++ [join (-1) (low s.mtimecmp),
      join (-1) (low (rearmedTo ticks s)), rearmedTo ticks s] := by
  have hsum := join_add (high (lastRead ticks s)) (low (firstRead ticks s)) timerInterval
  rw [rearmedTo, ← hsum, low_join, lastRead, firstRead]
  simp [mtimeAt, rearmCode, timerRun, TimerOp.exec, TimerHart.wait, TimerHart.set, TimerHart.load,
    TimerHart.store, Hart.set, Hart.get, systemBase, systemLowMtime, systemHighMtime,
    systemLowMtimecmp, systemHighMtimecmp]
  rfl

theorem timerInterrupt_mtimecmp : (timerInterrupt ticks s).mtimecmp = rearmedTo ticks s := by
  have hlast := congrArg (List.getLastD · s.mtimecmp) (rearm_spec ticks s)
  rwa [List.getLastD_map] at hlast

/-- With all ones in its high half, `mtimecmp` is not before a time with the same low half. -/
theorem le_join_ones (c : BitVec 64) : c ≤ join (-1) (low c) := by
  have hlt := (high c).isLt
  have hones : (-1 : Word).toNat = 2 ^ 32 - 1 := rfl
  rw [BitVec.le_def, ← congrArg BitVec.toNat (join_high_low c), join_toNat, join_toNat, hones]
  omega

/-- **The timer is re-armed**: for an interval after a time between the two reads, and on the way
`mtimecmp` is never before both what it was and what it will be. -/
structure Rearmed : Prop where
  between : Between (firstRead ticks s + timerInterval.setWidth 64)
    (lastRead ticks s + timerInterval.setWidth 64) (timerInterrupt ticks s).mtimecmp
  notEarly : ∀ s' ∈ timerRun rearmCode ticks s,
    ¬ (s'.mtimecmp < s.mtimecmp ∧ s'.mtimecmp < (timerInterrupt ticks s).mtimecmp)

/-- `mtimecmp` is never early. -/
theorem rearm_notEarly : ∀ s' ∈ timerRun rearmCode ticks s,
    ¬ (s'.mtimecmp < s.mtimecmp ∧ s'.mtimecmp < (timerInterrupt ticks s).mtimecmp) := by
  intro s' hs' hearly
  have hmem := List.mem_map_of_mem (f := TimerHart.mtimecmp) hs'
  rw [rearm_spec, List.mem_append, List.mem_replicate, List.mem_cons, List.mem_cons,
    List.mem_singleton] at hmem
  rw [timerInterrupt_mtimecmp] at hearly
  obtain ⟨hold, hnew⟩ := hearly
  rcases hmem with ⟨-, h⟩ | h | h | h <;> rw [h] at hold hnew
  · exact BitVec.lt_irrefl _ hold
  · exact BitVec.not_lt.2 (le_join_ones _) hold
  · exact BitVec.not_lt.2 (le_join_ones _) hnew
  · exact BitVec.lt_irrefl _ hnew

/-- **The timer is re-armed one interval ahead** if and only if its low half does not come around between
the two reads. -/
theorem timer_rearmed_iff (ticks : Nat → Nat) (s : TimerHart) : Rearmed ticks s ↔
    high (firstRead ticks s) = high (lastRead ticks s) ∨
      (low (firstRead ticks s)).toNat ≤ (low (lastRead ticks s)).toNat := by
  have hbetween : Between (firstRead ticks s + timerInterval.setWidth 64)
      (lastRead ticks s + timerInterval.setWidth 64) (timerInterrupt ticks s).mtimecmp ↔
        Between (firstRead ticks s) (lastRead ticks s)
          (join (high (lastRead ticks s)) (low (firstRead ticks s))) := by
    rw [timerInterrupt_mtimecmp, rearmedTo]
    exact between_add
  rw [← between_join_iff, ← hbetween]
  exact ⟨fun h => h.between, fun h => ⟨h, rearm_notEarly ticks s⟩⟩

end Rearm

/-- A hart when the time is `0xffffffff`. -/
def rollOver : TimerHart where
  reg _ := 0
  mem _ := 0
  mtime := 0xffffffff
  mtimecmp := 0xffffffff

/-- One tick between the two reads, and the next interrupt is 2^32 ticks late. -/
theorem timer_postponed : ¬ ∀ (ticks : Nat → Nat) (s : TimerHart), Rearmed ticks s := by
  intro h
  have hbetween := (h (fun i => if i = 3 then 1 else 0) rollOver).between
  exact absurd hbetween (by decide +kernel)

end RiscyOS
