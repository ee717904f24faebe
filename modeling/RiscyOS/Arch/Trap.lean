import RiscyOS.Lib.Spill
import RiscyOS.Process.Table

/-!
# Into the kernel and out of it

`arch/riscv/trap.s`: every trap goes through `mhandler`.  It stores the registers of the interrupted
process in its PCB, calls `trap_handler` on the machine stack, and loads the registers of the process
that is current by then, which need not be the one that was interrupted.  The idle task has no registers
worth keeping, and while it is running (`kidle`) nothing is stored on the way in and nothing loaded on
the way out.

The two halves are `mhandlerSave` and `mhandlerRestore`, with a lemma each about what they do with a
process (`mhandlerSave_running`, `mhandlerRestore_running`) and with the idle task.  What `trap_handler`
does in between is the subject of `RiscyOS.Arch.TrapRuns`.
-/

set_option autoImplicit false

namespace RiscyOS

open Memory Riscv Riscv.Image

/-! ## The trap frame -/

/-- The registers of a trap frame, in the order of `include/trap.inc`. -/
def trapFrame : List Reg :=
  [.ra, .gp, .tp, .t0, .t1, .t2, .s0, .s1, .a0, .a1, .a2, .a3, .a4, .a5, .a6, .a7, .s2, .s3, .s4, .s5,
    .s6, .s7, .s8, .s9, .s10, .s11, .t3, .t4, .t5, .t6]

/-- `TF_RA`, `TF_GP` and so on: the place of a register in the frame. -/
def tf (r : Reg) : Nat := 4 * trapFrame.idxOf r

/-- The bytes of the trap frame at `p`. -/
def frameSpan (p : Ptr) : Span := ⟨p, 120⟩

/-- The registers that `mhandler` stores first, with the PCB in `t0`. -/
def savedFirst : List Reg :=
  [.ra, .gp, .tp, .t1, .t2, .s0, .s1, .a0, .a1, .a2, .a3, .a4, .a5, .a6, .a7, .s2, .s3, .s4, .s5, .s6,
    .s7, .s8, .s9, .s10, .s11, .t3, .t4, .t5, .t6]

/-- The registers that it loads first, with the PCB in `t6`. -/
def loadedFirst : List Reg :=
  [.ra, .gp, .tp, .t0, .t1, .t2, .s0, .s1, .a0, .a1, .a2, .a3, .a4, .a5, .a6, .a7, .s2, .s3, .s4, .s5,
    .s6, .s7, .s8, .s9, .s10, .s11, .t3, .t4, .t5]

theorem tf_a0 : tf .a0 = tfA0 := by decide

theorem tf_places : Places tf 120 trapFrame := ⟨by decide, by decide +kernel⟩

theorem savedFirst_subset : savedFirst ⊆ trapFrame := by decide

/-! ## The processor -/

/-- The privilege modes in use. -/
inductive Mode where
  | user
  | machine
  deriving DecidableEq

/-- The processor, in front of the kernel's memory, CSRs and variables. -/
structure Core where
  mode : Mode
  pc : Word
  reg : Reg → Word
  kernel : Kernel

namespace Core

/-- Straight-line code without symbols and calls. -/
def bare : Image Empty Empty := ⟨Empty.elim, fun _ => 0, fun f => f.elim⟩

/-- What such code runs on. -/
def hart (c : Core) : Hart := ⟨c.reg, c.kernel.mem⟩

def get (c : Core) (r : Reg) : Word := c.hart.get r

def withHart (c : Core) (s : Hart) : Core := { c with reg := s.reg, kernel := { c.kernel with mem := s.mem } }

def exec (c : Core) (ops : List (Op Empty)) : Core := c.withHart (bare.execs ops c.hart)

def set (c : Core) (r : Reg) (v : Word) : Core := c.withHart (c.hart.set r v)

/-- `csrrw sp, MSCRATCH, sp`. -/
def swapSp (c : Core) : Core :=
  { c.set .sp c.kernel.csr.mscratch with
    kernel := { c.kernel with csr := { c.kernel.csr with mscratch := c.get .sp } } }

/-- `mhandler` up to the call of `trap_handler`. -/
def mhandlerSave (c : Core) : Core :=
  let c := c.swapSp
  let c := c.exec [.addi .sp .sp (-4), .sw .t0 0 .sp]
  -- lb t0, kidle
  let c := c.set .t0 (c.kernel.kidle.signExtend 32)
  let c :=
    if c.get .t0 ≠ 0 then c else
      -- lw t0, current_pcb
      let c := c.set .t0 c.kernel.currentPcb
      c.exec (saves tf .t0 savedFirst ++ [.mv .a0 .t0, .lw .t0 0 .sp, .sw .t0 (tf .t0) .a0])
  -- mhandler_call_trap_handler
  c.exec [.addi .sp .sp 4]

/-- `mhandler` from the call of `trap_handler` on, up to `mret`. -/
def mhandlerRestore (c : Core) : Core :=
  -- lb t0, kidle
  let c := c.set .t0 (c.kernel.kidle.signExtend 32)
  let c :=
    if c.get .t0 ≠ 0 then c else
      -- lw t6, current_pcb
      let c := c.set .t6 c.kernel.currentPcb
      c.exec (loads tf .t6 (loadedFirst ++ [.t6]))
  -- mhandler_end
  c.swapSp

/-- A trap is taken: the hardware keeps the `pc` in `MEPC` and leaves `mstatus` in `MSTATUS`, and then
`mhandler` runs up to its call. -/
def trap (c : Core) (mstatus : Word) : Core :=
  let csr := { c.kernel.csr with mepc := c.pc, mstatus := mstatus }
  { c with mode := .machine, kernel := { c.kernel with csr := csr } }.mhandlerSave

/-- `trap_handler` comes back with `reg`, the rest of `mhandler` runs, and `mret` leaves `mstatus` in
`MSTATUS`. -/
def mret (c : Core) (reg : Reg → Word) (mstatus : Word) : Core :=
  let c := { c with reg := reg }.mhandlerRestore
  let csr := { c.kernel.csr with mstatus := mstatus }
  { c with mode := .user, pc := c.kernel.csr.mepc, kernel := { c.kernel with csr := csr } }

/-! ## What the two halves do -/

variable {c : Core} {K p : Word} {r : Reg}

/-- **The state in which `trap_handler` is called,** with the machine stack at `K`: the stack pointers
are exchanged, and of the memory nothing but the spans `S` has been written. -/
structure Entered (c t : Core) (K : Word) (S : List Span) : Prop where
  mode : t.mode = c.mode
  sp : t.get .sp = K
  kernel : t.kernel =
    { c.kernel with mem := t.kernel.mem, csr := { c.kernel.csr with mscratch := c.get .sp } }
  alters : Alters S c.kernel.mem t.kernel.mem

/-- The word on the machine stack where `t0` is kept for a while. -/
def stackSlot (K : Word) : Span := ⟨K + -4, 4⟩

theorem frame_down_up (K : Word) : K + -4 + 4 = K := by
  rw [BitVec.add_assoc, BitVec.add_comm (-4), BitVec.add_right_neg, BitVec.add_zero]

theorem hart_exec (c : Core) (ops : List (Op Empty)) : (c.exec ops).hart = bare.execs ops c.hart := rfl

theorem hart_set (c : Core) (r : Reg) (v : Word) : (c.set r v).hart = c.hart.set r v := rfl

theorem hart_swapSp (c : Core) : c.swapSp.hart = c.hart.set .sp c.kernel.csr.mscratch := rfl

theorem kernel_exec (c : Core) (ops : List (Op Empty)) :
    (c.exec ops).kernel = { c.kernel with mem := (bare.execs ops c.hart).mem } := rfl

theorem kernel_set (c : Core) (r : Reg) (v : Word) : (c.set r v).kernel = c.kernel := rfl

theorem kernel_swapSp (c : Core) : c.swapSp.kernel =
    { c.kernel with csr := { c.kernel.csr with mscratch := c.get .sp } } := rfl

theorem execs_cons (o : Op Empty) (ops : List (Op Empty)) (s : Hart) :
    bare.execs (o :: ops) s = bare.execs ops (bare.exec o s) := rfl

theorem execs_nil (s : Hart) : bare.execs [] s = s := rfl

/-- After the push of `t0` and the load of `kidle`. -/
def pushed (c : Core) : Core :=
  let t := c.swapSp.exec [.addi .sp .sp (-4), .sw .t0 0 .sp]
  t.set .t0 (t.kernel.kidle.signExtend 32)

theorem pushed_get (hsp : r ≠ .sp) (ht0 : r ≠ .t0) : c.pushed.get r = c.get r := by
  simp only [pushed, get, hart_set, hart_exec, hart_swapSp, execs_cons, execs_nil]
  rw [Hart.get_set_of_ne ht0, get_exec_sw, get_exec_of_ne (by simpa [Op.dest] using Ne.symm hsp),
    Hart.get_set_of_ne hsp]

theorem pushed_sp : c.pushed.get .sp = c.kernel.csr.mscratch + -4 := by
  rw [pushed, get, hart_set, Hart.get_set_of_ne (by decide), hart_exec, execs_cons, execs_cons, execs_nil]
  rw [get_exec_sw, get_exec_addi (by decide)]
  rw [hart_swapSp, Hart.get_set_self (by decide)]

theorem pushed_t0 : c.pushed.get .t0 = c.kernel.kidle.signExtend 32 := by
  rw [pushed, get, hart_set, Hart.get_set_self (by decide), kernel_exec]
  rfl

theorem pushed_kernel : c.pushed.kernel = { c.kernel with
    mem := setWord c.kernel.mem (c.kernel.csr.mscratch + -4) 0 (c.get .t0)
    csr := { c.kernel.csr with mscratch := c.get .sp } } := by
  have hmem : (bare.execs [.addi .sp .sp (-4), .sw .t0 0 .sp] c.swapSp.hart).mem =
      setWord c.kernel.mem (c.kernel.csr.mscratch + -4) 0 (c.get .t0) := by
    rw [execs_cons, execs_cons, execs_nil, mem_exec_sw, get_exec_addi (by decide),
      mem_exec_of_dest (by decide), get_exec_of_ne (by decide), hart_swapSp, Hart.get_set_self (by decide),
      Hart.get_set_of_ne (by decide), Hart.mem_set]
    rfl
  rw [pushed, kernel_set, kernel_exec, hmem, kernel_swapSp]

theorem mhandlerSave_eq (c : Core) : c.mhandlerSave =
    (if c.pushed.get .t0 ≠ 0 then c.pushed else
      (c.pushed.set .t0 c.pushed.kernel.currentPcb).exec
        (saves tf .t0 savedFirst ++ [.mv .a0 .t0, .lw .t0 0 .sp, .sw .t0 (tf .t0) .a0])).exec
      [.addi .sp .sp 4] := rfl

/-- The pop. -/
theorem get_pop : (c.exec [.addi .sp .sp 4]).get .sp = c.get .sp + 4 := by
  rw [get, hart_exec, execs_cons, execs_nil, get_exec_addi (by decide), ← get]

theorem kernel_pop : (c.exec [.addi .sp .sp 4]).kernel = c.kernel := by
  rw [kernel_exec, execs_cons, execs_nil, mem_exec_of_dest (by decide)]
  rfl

/-- **The way in from the idle task.** -/
theorem mhandlerSave_idle (hK : c.kernel.csr.mscratch = K) (hk : c.kernel.kidle ≠ 0) :
    c.Entered c.mhandlerSave K [stackSlot K] := by
  have hidle : c.pushed.get .t0 ≠ 0 := by
    rw [pushed_t0]
    exact mt (signExtend_eq_zero _).1 hk
  rw [mhandlerSave_eq, if_pos hidle]
  refine ⟨rfl, ?_, ?_, ?_⟩
  · rw [get_pop, pushed_sp, hK, frame_down_up]
  · rw [kernel_pop, pushed_kernel]
  · rw [kernel_pop, pushed_kernel, hK, stackSlot, ← part_zero]
    exact alters_setWord _ _ _ _

/-- What the stores for a process do, with the machine stack at `K` and the PCB at `p`. -/
theorem saves_spec {s : Hart} (hp : s.get .t0 = p) (hslot : (Span.mk (s.get .sp) 4).Apart (frameSpan p)) :
    let t := bare.execs (saves tf .t0 savedFirst ++ [.mv .a0 .t0, .lw .t0 0 .sp, .sw .t0 (tf .t0) .a0]) s
    t.get .sp = s.get .sp ∧ Alters [frameSpan p] s.mem t.mem ∧
      word t.mem p (tf .t0) = word s.mem (s.get .sp) 0 ∧
      ∀ r ∈ savedFirst, word t.mem p (tf r) = s.get r := by
  subst hp
  have hplaces := tf_places.subset savedFirst_subset
  have halter : Alters [frameSpan (s.get .t0)] s.mem (bare.execs (saves tf .t0 savedFirst) s).mem :=
    alters_saves hplaces
  have hword : word (bare.execs (saves tf .t0 savedFirst) s).mem (s.get .sp) 0 = word s.mem (s.get .sp) 0 :=
    halter.word (List.forall_mem_singleton.2 (by rw [part_zero]; exact hslot.symm))
  intro t
  have hmem : t.mem = setWord (bare.execs (saves tf .t0 savedFirst) s).mem (s.get .t0) (tf .t0)
      (word s.mem (s.get .sp) 0) := by
    simp only [t, execs_append, execs_cons, execs_nil]
    rw [mem_exec_sw, mem_exec_of_dest (by decide), mem_exec_of_dest (by decide), get_exec_lw_of_ne (by decide),
      get_exec_mv (by decide), get_exec_lw (by decide), get_exec_of_ne (by decide), get_saves, get_saves,
      mem_exec_of_dest (by decide), hword]
  refine ⟨?_, ?_, ?_, fun r hr => ?_⟩
  · simp only [t, execs_append, execs_cons, execs_nil]
    rw [get_exec_sw, get_exec_lw_of_ne (by decide), get_exec_of_ne (by decide), get_saves]
  · rw [hmem]
    exact halter.setWord (.part (List.mem_singleton_self _) (by decide))
  · rw [hmem, word_setWord]
  · have hne : tf .t0 + 4 ≤ tf r ∨ tf r + 4 ≤ tf .t0 :=
      tf_places.apart .t0 (by decide) r (savedFirst_subset hr) fun h => absurd (h ▸ hr) (by decide)
    have hle := tf_places.inside r (savedFirst_subset hr)
    rw [hmem, word_setWord_ne hne (by decide) (hle.trans (by decide))]
    exact word_saves (by decide) hplaces hr

/-- **The way in from a process.**  Every register of the frame is in its place. -/
theorem mhandlerSave_running (hK : c.kernel.csr.mscratch = K) (hk : c.kernel.kidle = 0)
    (hp : c.kernel.currentPcb = p) (hslot : (stackSlot K).Apart (frameSpan p)) :
    c.Entered c.mhandlerSave K [stackSlot K, frameSpan p] ∧
      ∀ r ∈ trapFrame, word c.mhandlerSave.kernel.mem p (tf r) = c.get r := by
  have hidle : c.pushed.get .t0 = 0 := by
    rw [pushed_t0]
    exact (signExtend_eq_zero _).2 hk
  have hcur : c.pushed.kernel.currentPcb = p := by rw [pushed_kernel, hp]
  have hpushed : c.pushed.kernel.mem = setWord c.kernel.mem (K + -4) 0 (c.get .t0) := by
    rw [pushed_kernel, hK]
  have hsp : (c.pushed.hart.set .t0 p).get .sp = K + -4 := by
    rw [Hart.get_set_of_ne (by decide), ← get, pushed_sp, hK]
  obtain ⟨hsp', halter, ht0, hregs⟩ := saves_spec (s := c.pushed.hart.set .t0 p) (p := p)
    (Hart.get_set_self (by decide)) (by rw [hsp]; exact hslot)
  rw [hsp, Hart.mem_set, show c.pushed.hart.mem = c.pushed.kernel.mem from rfl, hpushed] at ht0
  rw [Hart.mem_set, show c.pushed.hart.mem = c.pushed.kernel.mem from rfl, hpushed] at halter
  rw [mhandlerSave_eq, if_neg (not_not.2 hidle), hcur]
  refine ⟨⟨rfl, ?_, ?_, ?_⟩, fun r hr => ?_⟩
  · rw [get_pop, get, hart_exec, hart_set, hsp', hsp, frame_down_up]
  · rw [kernel_pop, kernel_exec, kernel_set, pushed_kernel]
  · rw [kernel_pop, kernel_exec, hart_set]
    have hpush : Alters [stackSlot K, frameSpan p] c.kernel.mem
        (setWord c.kernel.mem (K + -4) 0 (c.get .t0)) :=
      (Alters.refl _ _).setWord (by rw [part_zero]; exact .of_mem List.mem_cons_self)
    exact hpush.trans (halter.mono (List.forall_mem_singleton.2 (.of_mem (by simp))))
  · rw [kernel_pop, kernel_exec, hart_set]
    by_cases h0 : r = .t0
    · rw [h0]
      exact ht0.trans (word_setWord _ _ _ _)
    · have hne : r ≠ .sp := fun h => absurd (h ▸ hr) (by decide)
      have hmem : r ∈ savedFirst := by
        have hall : ∀ r ∈ trapFrame, r ≠ .t0 → r ∈ savedFirst := by decide
        exact hall r hr h0
      rw [← pushed_get hne h0]
      exact (hregs r hmem).trans (Hart.get_set_of_ne h0)

/-! ## The way out -/

theorem mhandlerRestore_eq (c : Core) : c.mhandlerRestore =
    (if (c.set .t0 (c.kernel.kidle.signExtend 32)).get .t0 ≠ 0 then c.set .t0 (c.kernel.kidle.signExtend 32)
      else ((c.set .t0 (c.kernel.kidle.signExtend 32)).set .t6 c.kernel.currentPcb).exec
        (loads tf .t6 (loadedFirst ++ [.t6]))).swapSp := rfl

theorem swapSp_get (h : r ≠ .sp) : c.swapSp.get r = c.get r := Hart.get_set_of_ne h

/-- **The state in front of `mret`:** the stack pointers are exchanged back. -/
structure Left (c t : Core) : Prop where
  mode : t.mode = c.mode
  sp : t.get .sp = c.kernel.csr.mscratch
  kernel : t.kernel = { c.kernel with csr := { c.kernel.csr with mscratch := c.get .sp } }

/-- **The way out to the idle task.** -/
theorem mhandlerRestore_idle (hk : c.kernel.kidle ≠ 0) : c.Left c.mhandlerRestore := by
  have hidle : (c.set .t0 (c.kernel.kidle.signExtend 32)).get .t0 ≠ 0 := by
    rw [get, hart_set, Hart.get_set_self (by decide)]
    exact mt (signExtend_eq_zero _).1 hk
  rw [mhandlerRestore_eq, if_pos hidle]
  refine ⟨rfl, Hart.get_set_self (by decide), ?_⟩
  rw [kernel_swapSp, kernel_set, get, hart_set, Hart.get_set_of_ne (by decide), ← get]

/-- **The way out to a process.**  Every register of the frame is what its place holds. -/
theorem mhandlerRestore_running (hk : c.kernel.kidle = 0) :
    c.Left c.mhandlerRestore ∧ ∀ r ∈ trapFrame,
      c.mhandlerRestore.get r = word c.kernel.mem c.kernel.currentPcb (tf r) := by
  have hidle : (c.set .t0 (c.kernel.kidle.signExtend 32)).get .t0 = 0 := by
    rw [get, hart_set, Hart.get_set_self (by decide)]
    exact (signExtend_eq_zero _).2 hk
  have hframe : trapFrame = loadedFirst ++ [.t6] := by decide
  rw [mhandlerRestore_eq, if_neg (not_not.2 hidle)]
  refine ⟨⟨rfl, Hart.get_set_self (by decide), ?_⟩, fun r hr => ?_⟩
  · rw [kernel_swapSp, kernel_exec, mem_loads, get, hart_exec, get_loads_of_notMem (by decide), hart_set,
      hart_set, Hart.get_set_of_ne (by decide), Hart.get_set_of_ne (by decide), ← get]
    rfl
  · have hne : r ≠ .sp := fun h => absurd (h ▸ hr) (by decide)
    rw [swapSp_get hne, get, hart_exec, get_loads_base (by decide) (by decide) (hframe ▸ hr), hart_set,
      Hart.get_set_self (by decide)]
    rfl

end Core

end RiscyOS
