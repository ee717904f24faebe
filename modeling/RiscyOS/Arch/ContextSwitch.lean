import RiscyOS.Arch.Mmu

/-!
# Switching between processes

`arch/riscv/context_switch.s` and the part of `kernel/scheduler.s` that calls it.  A process that
is not running has its `MEPC`, `MSTATUS` and `MSCRATCH` parked in its PCB; `contextSwitch` parks
those of the process it leaves and loads those of the process it enters.  There are three ways
through it: process to process, process to idle (a null target), and idle to process.

`SwitchReach` follows any sequence of switches, with the processor doing as it likes in between,
and keeps beside the machine a ledger `out` of what the CSRs held when each process was last
switched out.  The invariant is that the ledger agrees with the PCB of every process that is not
running (`SwitchReach.parked`).  It is *not* kept by every call.  On the way from process to
process the register `t0`, holding the old `MEPC`, is reused for the idle flag before it is stored,
so what is parked is the flag: zero.  And a process switched to itself is loaded from its PCB
before it is parked, so it resumes with values that are one switch old.  `SwitchSafe` is the
condition under which neither does harm, and `contextSwitch_keeps_iff` says it is exact.
-/

set_option autoImplicit false

namespace RiscyOS

open Memory

/-! ## The machine -/

/-- The control and status registers that belong to the running process. -/
structure Csr where
  mepc : Word
  mstatus : Word
  mscratch : Word
  deriving DecidableEq, Repr

/-- What the context switch reads and writes: `current_pcb`, `kidle`, the CSRs, the MMU registers,
and the PCBs and memory regions by address. -/
structure Machine where
  currentPcb : Ptr
  kidle : Byte
  csr : Csr
  mmu : MmuRegs
  pcb : Ptr → Pcb
  region : Ptr → MemoryRegion

/-- `USER_MODE_MASK`: clears the `MPP` bits. -/
def userModeMask : Word := ~~~0x1800

/-- `SUPERVISOR_MODE_MASK`. -/
def supervisorModeMask : Word := 0x800

/-- `kernel_stack_base`. -/
def kernelStackBase : Word := 0x4000

/-- The CSR fields of a PCB. -/
def Pcb.csr (p : Pcb) : Csr := ⟨p.mepc, p.mstatus, p.mscratch⟩

/-- The three stores at label `1`: park CSR values in the PCB at `t6`. -/
def Machine.storeCsr (s : Machine) (t6 : Ptr) (t0 t1 t2 : Word) : Machine :=
  { s with pcb := fun p => if p = t6 then
      { s.pcb p with mepc := t0, mstatus := t1, mscratch := t2 } else s.pcb p }

/-- `context_switch`, with `idle` the address of `kernel_idle_task`. -/
def contextSwitch (idle : Word) (a0 : Ptr) (s : Machine) : Machine :=
  let t6 := s.currentPcb
  if a0 = null then
    -- switch_to_idle
    let s := { s with kidle := 1 }
    let t1 := s.csr.mstatus ||| supervisorModeMask
    let old := s.csr
    let s := { s with csr := ⟨idle, t1, kernelStackBase⟩ }
    if t6 = null then s else s.storeCsr t6 old.mepc old.mstatus old.mscratch
  else
    let s := { s with currentPcb := a0 }
    let s := { s with mmu := mmuSetProc s.region (s.pcb a0) s.mmu }
    let t0 := (s.pcb a0).mepc
    let t1 := (s.pcb a0).mstatus &&& userModeMask
    let t2 := (s.pcb a0).mscratch
    -- the three csrrw exchange the new values for the old ones
    let old := s.csr
    let s := { s with csr := ⟨t0, t1, t2⟩ }
    let t1 := old.mstatus
    let t2 := old.mscratch
    -- lb t0, kidle: the old MEPC is gone from here on
    let t0 := s.kidle.signExtend 32
    if t0 ≠ 0 then { s with kidle := 0 } else s.storeCsr t6 t0 t1 t2

/-! ## The callers -/

/-- The loop of `schedule_next`, from the PCB after `t0` around to `s0`. -/
def scheduleNextLoop (s : Machine) (s0 : Ptr) : Nat → Ptr → Option Ptr
  | 0, _ => none
  | fuel + 1, t0 =>
    let t0 := (s.pcb t0).next
    let t1 := (s.pcb t0).pstatus
    if t1 = stateReady then some t0
    else if t0 ≠ s0 then scheduleNextLoop s s0 fuel t0
    else if t1 = stateRunning then some t0
    else some null

/-- `schedule_next`: the next process to run, or `NULL`.  A ring without the starting PCB would be
walked for ever, which is the `none` of running out of fuel. -/
def scheduleNext (s : Machine) : Option Ptr :=
  if s.currentPcb = null then some null
  else scheduleNextLoop s s.currentPcb (2 ^ 32) s.currentPcb

/-- `schedule`. -/
def schedule (idle : Word) (s : Machine) : Option Machine := do
  let a0 ← scheduleNext s
  if a0 ≠ null then some (contextSwitch idle a0 s)
  else if s.kidle ≠ 0 then some s
  else some (contextSwitch idle null s)

/-- The calls the routine is written for: not from idle to idle, and from process to process only
when there is a process. -/
def Callable (s : Machine) (a0 : Ptr) : Prop :=
  (s.kidle ≠ 0 → a0 ≠ null) ∧ (s.kidle = 0 → s.currentPcb = null → a0 = null)

/-- **`schedule` only makes calls the switch is written for**, and without a process to go to an idle
kernel stays as it is. -/
theorem schedule_cases {idle : Word} {s s' : Machine} (h : schedule idle s = some s') :
    ∃ a0, scheduleNext s = some a0 ∧
      (a0 = null ∧ s.kidle ≠ 0 ∧ s' = s ∨ Callable s a0 ∧ s' = contextSwitch idle a0 s) := by
  rw [schedule, Option.bind_eq_bind, Option.bind_eq_some_iff] at h
  obtain ⟨a0, hnext, h⟩ := h
  refine ⟨a0, hnext, ?_⟩
  by_cases ha : a0 = null
  · rw [if_neg (not_not.2 ha)] at h
    by_cases hk : s.kidle = 0
    · rw [if_neg (not_not.2 hk)] at h
      rw [ha]
      exact Or.inr ⟨⟨fun hk' => absurd hk hk', fun _ _ => rfl⟩, (Option.some.inj h).symm⟩
    · rw [if_pos hk] at h
      exact Or.inl ⟨ha, hk, (Option.some.inj h).symm⟩
  · rw [if_pos ha] at h
    refine Or.inr ⟨⟨fun _ => ha, fun _ hcur => ?_⟩, (Option.some.inj h).symm⟩
    rw [scheduleNext, if_pos hcur] at hnext
    exact (Option.some.inj hnext).symm

/-! ## The three ways through -/

theorem signExtend_eq_zero (b : Byte) : b.signExtend 32 = 0 ↔ b = 0 := by
  rw [← BitVec.toInt_inj, ← BitVec.toInt_inj, BitVec.toInt_signExtend_of_le (by decide)]
  rfl

section Paths

variable {idle : Word} {a0 : Ptr} {s : Machine}

/-- Process to idle. -/
theorem contextSwitch_null : contextSwitch idle null s =
    let s' := { s with kidle := 1, csr := ⟨idle, s.csr.mstatus ||| supervisorModeMask, kernelStackBase⟩ }
    if s.currentPcb = null then s' else
      s'.storeCsr s.currentPcb s.csr.mepc s.csr.mstatus s.csr.mscratch := by
  simp [contextSwitch]

/-- What every switch to a process loads. -/
def Machine.enter (s : Machine) (a0 : Ptr) : Machine :=
  { s with
    currentPcb := a0
    mmu := mmuSetProc s.region (s.pcb a0) s.mmu
    csr := ⟨(s.pcb a0).mepc, (s.pcb a0).mstatus &&& userModeMask, (s.pcb a0).mscratch⟩ }

/-- Idle to process. -/
theorem contextSwitch_of_idle (ha : a0 ≠ null) (hk : s.kidle ≠ 0) :
    contextSwitch idle a0 s = { s.enter a0 with kidle := 0 } := by
  rw [contextSwitch, if_neg ha]
  exact if_pos (mt (signExtend_eq_zero _).1 hk)

/-- Process to process: the word parked as `MEPC` is the idle flag. -/
theorem contextSwitch_of_process (ha : a0 ≠ null) (hk : s.kidle = 0) :
    contextSwitch idle a0 s =
      (s.enter a0).storeCsr s.currentPcb 0 s.csr.mstatus s.csr.mscratch := by
  have h0 : s.kidle.signExtend 32 = 0 := (signExtend_eq_zero _).2 hk
  simp only [contextSwitch, if_neg ha, h0, ne_eq, not_true_eq_false, if_false]
  rfl

@[simp] theorem storeCsr_csr {t6 : Ptr} {t0 t1 t2 : Word} :
    (s.storeCsr t6 t0 t1 t2).csr = s.csr := rfl

@[simp] theorem storeCsr_pcb_self {t6 : Ptr} {t0 t1 t2 : Word} :
    ((s.storeCsr t6 t0 t1 t2).pcb t6).csr = ⟨t0, t1, t2⟩ := by
  simp [Machine.storeCsr, Pcb.csr]

theorem storeCsr_pcb_of_ne {t6 p : Ptr} {t0 t1 t2 : Word} (h : p ≠ t6) :
    (s.storeCsr t6 t0 t1 t2).pcb p = s.pcb p := if_neg h

end Paths

/-! ## Sequences of switches -/

/-- The ledger after a switch: a running process, if there is one, leaves with the CSRs it has. -/
def noteOut (s : Machine) (out : Ptr → Csr) : Ptr → Csr := fun p =>
  if s.kidle = 0 ∧ p = s.currentPcb then s.csr else out p

/-- The condition under which a switch keeps its promise.  With idle on either side there is none.
From one process to another the `MEPC` that is about to be lost has to be zero; from a process to
itself what is loaded from the PCB has to be what the CSRs hold anyway. -/
def SwitchSafe (s : Machine) (a0 : Ptr) : Prop :=
  s.kidle = 0 → a0 ≠ null →
    if a0 = s.currentPcb then
      (s.pcb a0).mepc = s.csr.mepc ∧ (s.pcb a0).mscratch = s.csr.mscratch ∧
        (s.pcb a0).mstatus &&& userModeMask = s.csr.mstatus &&& userModeMask
    else s.csr.mepc = 0

/-- The machines reached by safe switches, each with its ledger.  In between the processor may
change the CSRs and anything in the PCBs except the parked CSRs. -/
inductive SwitchReach (idle : Word) : Machine → (Ptr → Csr) → Prop
  | start (s : Machine) : SwitchReach idle s fun p => (s.pcb p).csr
  | run {s s' : Machine} {out : Ptr → Csr} (h : SwitchReach idle s out)
      (hcur : s'.currentPcb = s.currentPcb) (hidle : s'.kidle = s.kidle)
      (hpcb : ∀ p, (s'.pcb p).csr = (s.pcb p).csr) : SwitchReach idle s' out
  | switch {s : Machine} {out : Ptr → Csr} {a0 : Ptr} (h : SwitchReach idle s out)
      (hcall : Callable s a0) (hsafe : SwitchSafe s a0) :
      SwitchReach idle (contextSwitch idle a0 s) (noteOut s out)

/-- The CSRs `c` are those a process parked with `saved` has to resume with. -/
def Resumes (c saved : Csr) : Prop :=
  c.mepc = saved.mepc ∧ c.mscratch = saved.mscratch ∧ c.mstatus = saved.mstatus &&& userModeMask

/-- What one switch promises: the process entered resumes with what it was switched out with, the
process left is parked with what the CSRs held, and no other PCB is touched. -/
structure Keeps (idle : Word) (s : Machine) (out : Ptr → Csr) (a0 : Ptr) : Prop where
  /-- The process entered resumes. -/
  resumes : a0 ≠ null → Resumes (contextSwitch idle a0 s).csr (noteOut s out a0)
  /-- The process left is parked. -/
  parks : s.kidle = 0 → s.currentPcb ≠ null → s.currentPcb ≠ a0 →
    ((contextSwitch idle a0 s).pcb s.currentPcb).csr = s.csr
  /-- Nobody else is touched. -/
  others : ∀ p, p ≠ s.currentPcb → (contextSwitch idle a0 s).pcb p = s.pcb p

/-- A switch touches the PCB of the process it leaves at most. -/
theorem contextSwitch_pcb_of_ne {idle : Word} {s : Machine} {a0 p : Ptr} (h : p ≠ s.currentPcb) :
    (contextSwitch idle a0 s).pcb p = s.pcb p := by
  by_cases ha : a0 = null
  · rw [ha, contextSwitch_null]
    simp only
    split
    · rfl
    · rw [storeCsr_pcb_of_ne h]
  · by_cases hk : s.kidle = 0
    · rw [contextSwitch_of_process ha hk, storeCsr_pcb_of_ne h]
      rfl
    · rw [contextSwitch_of_idle ha hk]
      rfl

/-- What a switch to a process leaves in the CSRs. -/
theorem contextSwitch_csr {idle : Word} {s : Machine} {a0 : Ptr} (ha : a0 ≠ null) :
    (contextSwitch idle a0 s).csr =
      ⟨(s.pcb a0).mepc, (s.pcb a0).mstatus &&& userModeMask, (s.pcb a0).mscratch⟩ := by
  by_cases hk : s.kidle = 0
  · rw [contextSwitch_of_process ha hk]
    rfl
  · rw [contextSwitch_of_idle ha hk]
    rfl

/-- **The invariant.**  The PCB of every process that is not running holds what the CSRs held when
it was last switched out. -/
theorem SwitchReach.parked {idle : Word} {s : Machine} {out : Ptr → Csr}
    (h : SwitchReach idle s out) :
    ∀ p, p ≠ null → ¬ (s.kidle = 0 ∧ p = s.currentPcb) → (s.pcb p).csr = out p := by
  induction h with
  | start s => exact fun p _ _ => rfl
  | run h hcur hidle hpcb ih =>
    intro p hp hrun
    rw [hpcb]
    exact ih p hp (by rwa [hcur, hidle] at hrun)
  | @switch s out a0 h hcall hsafe ih =>
    intro p hp hrun
    rw [noteOut]
    by_cases hcur : p = s.currentPcb
    · subst hcur
      by_cases hk : s.kidle = 0
      · -- the process that leaves
        rw [if_pos ⟨hk, rfl⟩]
        by_cases ha : a0 = null
        · rw [ha, contextSwitch_null]
          simp only [if_neg hp, storeCsr_pcb_self]
        · rw [contextSwitch_of_process ha hk] at hrun ⊢
          have hne : a0 ≠ s.currentPcb := fun heq => hrun ⟨hk, heq.symm⟩
          have h0 := hsafe hk ha
          rw [if_neg hne] at h0
          rw [storeCsr_pcb_self, ← h0]
      · have ha := hcall.1 hk
        rw [if_neg fun hk' => hk hk'.1, contextSwitch_of_idle ha hk]
        exact ih _ hp fun hk' => hk hk'.1
    · rw [if_neg fun h => hcur h.2, contextSwitch_pcb_of_ne hcur]
      exact ih p hp fun h => hcur h.2

/-- **A switch keeps its promise exactly when it is safe.**  In every state reached by safe
switches, and for every call the routine is written for: the process entered resumes with the CSRs
it was last switched out with, the process left is parked with its own, and the others are
untouched, if and only if idle is on one side of the switch, or the `MEPC` left behind is zero, or
the process switches to itself with its PCB already up to date. -/
theorem contextSwitch_keeps_iff (idle : Word) (s : Machine) (out : Ptr → Csr) (a0 : Ptr)
    (h : SwitchReach idle s out) (hcall : Callable s a0) :
    Keeps idle s out a0 ↔ SwitchSafe s a0 := by
  constructor
  · intro hkeeps hk ha
    have hcur : s.currentPcb ≠ null := fun hcur => ha (hcall.2 hk hcur)
    split
    · rename_i heq
      have hres := hkeeps.resumes ha
      rwa [contextSwitch_csr ha, noteOut, if_pos ⟨hk, heq⟩] at hres
    · rename_i hne
      have hparks := hkeeps.parks hk hcur (Ne.symm hne)
      rw [contextSwitch_of_process ha hk, storeCsr_pcb_self] at hparks
      exact (congrArg Csr.mepc hparks).symm
  · intro hsafe
    refine ⟨fun ha => ?_, fun hk hcur hne => ?_, fun p hp => contextSwitch_pcb_of_ne hp⟩
    · rw [contextSwitch_csr ha, noteOut]
      split
      · rename_i hrun
        have hs := hsafe hrun.1 ha
        rwa [if_pos hrun.2] at hs
      · rename_i hrun
        have hpark := h.parked a0 ha hrun
        rw [← hpark]
        exact ⟨rfl, rfl, rfl⟩
    · have hpark := (h.switch hcall hsafe).parked s.currentPcb hcur
      rw [noteOut, if_pos ⟨hk, rfl⟩] at hpark
      refine hpark fun hrun => ?_
      by_cases ha : a0 = null
      · rw [ha, contextSwitch_null] at hrun
        simp only [if_neg hcur] at hrun
        exact absurd (show (1 : Byte) = 0 from hrun.1) (by decide)
      · rw [contextSwitch_of_process ha hk] at hrun
        exact hne hrun.2

/-! ### Two processes

Process `0x100` is running, interrupted at `0x24`; process `0x200` has not run yet and starts at
`0x40`. -/

/-- The machine with the two processes. -/
def twoProcesses : Machine where
  currentPcb := 0x100
  kidle := 0
  csr := ⟨0x24, 0x80, 0x3f0⟩
  mmu := .reset
  pcb := fun p => { Pcb.zero with mepc := if p = 0x200 then 0x40 else 0, mscratch := 0x3e0 }
  region := fun _ => ⟨0x40000, 0x1000, 1⟩

/-- Through idle the second process starts where its PCB says, and the first is parked. -/
theorem contextSwitch_keeps_through_idle :
    let s := contextSwitch 0x500 null twoProcesses
    (contextSwitch 0x500 0x200 s).csr.mepc = 0x40 ∧ (s.pcb 0x100).csr = twoProcesses.csr ∧
      Keeps 0x500 s (noteOut twoProcesses fun p => (twoProcesses.pcb p).csr) 0x200 := by
  have hsafe : SwitchSafe twoProcesses null := fun _ h => absurd rfl h
  have hreach := (@SwitchReach.start 0x500 twoProcesses).switch
    ⟨fun h => absurd rfl h, fun _ _ => rfl⟩ hsafe
  refine ⟨by decide, by decide, ?_⟩
  refine (contextSwitch_keeps_iff 0x500 _ _ 0x200 hreach ⟨fun _ => by decide, ?_⟩).2 ?_
  · intro hk
    exact absurd hk (by decide)
  · intro hk
    exact absurd hk (by decide)

/-- Straight to the second process, then idle, then back: the first process, switched out with
`MEPC` at `0x24`, resumes at zero. -/
theorem contextSwitch_loses_mepc :
    let s1 := contextSwitch 0x500 0x200 twoProcesses
    let s2 := contextSwitch 0x500 null s1
    let s3 := contextSwitch 0x500 0x100 s2
    Callable twoProcesses 0x200 ∧ Callable s1 null ∧ Callable s2 0x100 ∧
      s3.currentPcb = twoProcesses.currentPcb ∧
      twoProcesses.csr.mepc = 0x24 ∧ s3.csr.mepc = 0 := by
  refine ⟨⟨?_, ?_⟩, ⟨?_, ?_⟩, ⟨?_, ?_⟩, ?_, ?_, ?_⟩ <;> decide

end RiscyOS
