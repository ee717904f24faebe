import RiscyOS.Arch.Trap
import RiscyOS.Process.Fork

/-!
# The contexts of processes

A process that is not running exists as numbers in its PCB: the trap frame, and behind it the saved `pc`
and stack pointer.  While the kernel works for the process that is running, those two are still in `MEPC`
and `MSCRATCH` (`Kernel.context`).

* `Work` — what the kernel does, as far as contexts are concerned.  `Works` is what it does with
  the memory and the CSRs, and `Work.effect` what it means to do with the contexts.
* `Works.frame` — on the registers of the trap frame it does what it means to do, whatever it does.
* `Works.control` — on the `pc` and the stack pointer too, if a switch is safe in the sense of
  `RiscyOS.Arch.ContextSwitch`.
-/

set_option autoImplicit false

namespace RiscyOS

open Memory Riscv

/-- What a process is to the processor. -/
structure Context where
  pc : Word
  reg : Reg → Word

namespace Context

variable {x y z : Context}

/-- The two have the same registers, as far as they are in a trap frame. -/
def SameFrame (x y : Context) : Prop := ∀ r ∈ trapFrame, x.reg r = y.reg r

/-- They are at the same place, with the same stack. -/
def SameControl (x y : Context) : Prop := x.pc = y.pc ∧ x.reg .sp = y.reg .sp

theorem SameFrame.trans (h : x.SameFrame y) (h' : y.SameFrame z) : x.SameFrame z := fun r hr =>
  (h r hr).trans (h' r hr)

theorem SameControl.trans (h : x.SameControl y) (h' : y.SameControl z) : x.SameControl z :=
  ⟨h.1.trans h'.1, h.2.trans h'.2⟩

/-- A result is delivered. -/
def give (x : Context) (v : Word) : Context := { x with reg := fun r => if r = .a0 then v else x.reg r }

end Context

namespace Kernel

/-- The process at `p` is the one that is running. -/
def Running (s : Kernel) (p : Ptr) : Prop := s.kidle = 0 ∧ p = s.currentPcb

instance (s : Kernel) (p : Ptr) : Decidable (s.Running p) := inferInstanceAs (Decidable (_ ∧ _))

/-- **The context of a process**, as long as the kernel is at work. -/
def context (s : Kernel) (p : Ptr) : Context where
  pc := if s.Running p then s.csr.mepc else word s.mem p pcbMepc
  reg r :=
    if r = .sp then if s.Running p then s.csr.mscratch else word s.mem p pcbMscratch
    else word s.mem p (tf r)

/-- What leaves all contexts alone: the PCBs are the same up to `PCB_NEXT`, and so are the CSRs and the
variables of the scheduler. -/
structure KeepsContexts (s t : Kernel) : Prop where
  placed : t.Placed
  pcbs : t.pcbs = s.pcbs
  currentPcb : t.currentPcb = s.currentPcb
  kidle : t.kidle = 0 ↔ s.kidle = 0
  csr : t.csr = s.csr
  bytes : ∀ p ∈ s.pcbs, ∀ i < pcbNext, byte t.mem p i = byte s.mem p i

/-- What the kernel does, as far as contexts are concerned. -/
inductive Work where
  /-- Something that has nothing to do with them. -/
  | others
  /-- A result is stored in the place of `a0`. -/
  | deliver (p : Ptr) (v : Word)
  /-- `ecall_handler` moves on the `pc`. -/
  | ecall
  /-- `ecall_fork`, with all it asks for. -/
  | fork (g : ForkGrants)
  /-- `elf_finish` of a load for a process that is not running. -/
  | loaded (pcb : Ptr) (image : ProcessImage) (parentDirCluster : Word)
  /-- A PCB is given back. -/
  | free (p : Ptr)
  | schedule

/-- **What that does to the memory and the CSRs**, with the machine stack at `K`.  Records are handed out
as the allocators promise, and not on top of the machine stack.  A fork copies as much as it means to. -/
inductive Works (idle K : Word) (s : Kernel) : Work → Kernel → Prop
  | others {t : Kernel} (h : s.KeepsContexts t) : Works idle K s .others t
  | deliver (p : Ptr) (v : Word) (hp : p ∈ s.pcbs) :
      Works idle K s (.deliver p v) { s with mem := setWord s.mem p tfA0 v }
  | ecall (hrun : s.kidle = 0) : Works idle K s .ecall s.ecall
  | fork (g : ForkGrants) (hrun : s.kidle = 0) (hpcb : s.Grants g.pcb pcbSize)
      (hregion : (s.allocPcb g.pcb).Grants g.region memoryRegionStructSize) (hg : g.Enough)
      (hslot : (Core.stackSlot K).Apart (pcbSpan g.pcb)) (hsize : g.a2.toNat = pcbForkMemCpySize)
      (htext : s.ptext s.currentPcb = null ∨ s.ptext s.currentPcb ∈ s.regions)
      (hdata : s.pdata s.currentPcb ∈ s.regions) :
      Works idle K s (.fork g) (s.ecallFork s.currentPcb g)
  | loaded (pcb : Ptr) (image : ProcessImage) (parentDirCluster : Word) (hpcb : pcb ∈ s.pcbs)
      (hrun : ¬ s.Running pcb) (htext : s.ptext pcb = null ∨ s.ptext pcb ∈ s.regions)
      (hdata : s.pdata pcb = null ∨ s.pdata pcb ∈ s.regions) :
      Works idle K s (.loaded pcb image parentDirCluster) (s.elfFinishDone pcb image parentDirCluster)
  | free (p : Ptr) (hp : p ≠ s.currentPcb) : Works idle K s (.free p) (s.freePcb p)
  | schedule {t : Kernel} (h : s.schedule idle = some t)
      (hcur : t.currentPcb = s.currentPcb ∨ t.currentPcb ∈ s.pcbs) : Works idle K s .schedule t

/-- **What it means to do with the contexts.** -/
def Work.effect (s : Kernel) (ctx : Ptr → Context) : Work → Ptr → Context
  | .others | .free _ | .schedule => ctx
  | .deliver p v => Function.update ctx p ((ctx p).give v)
  | .ecall =>
    let x := ctx s.currentPcb
    Function.update ctx s.currentPcb { x with pc := x.pc + 4 }
  | .fork g =>
    let x := ctx s.currentPcb
    let pid : Byte := (s.pcbNextPid + 1).setWidth 8
    Function.update (Function.update ctx s.currentPcb (x.give (pid.setWidth 32))) g.pcb (x.give 0)
  | .loaded pcb image _ =>
    let textSize := word s.mem image.ptextMemoryRegion memoryRegionSize
    Function.update ctx pcb
      { pc := image.mepc
        reg := fun r => if r = .sp then image.pdataStart + textSize else (ctx pcb).reg r }

variable {idle K : Word} {s t : Kernel} {e : Work} {p q : Ptr} {r : Reg} {i : Nat}

/-! ## Words of PCBs -/

theorem tf_le (hr : r ∈ trapFrame) : tf r + 4 ≤ 120 := tf_places.inside r hr

theorem ne_sp (hr : r ∈ trapFrame) : r ≠ .sp := fun h => absurd (h ▸ hr) (by decide)

theorem context_reg (hr : r ∈ trapFrame) : (s.context p).reg r = word s.mem p (tf r) := if_neg (ne_sp hr)

/-- The records are apart, and the current PCB is one of them, if there is one. -/
structure Seated (s : Kernel) : Prop where
  placed : s.Placed
  current : s.currentPcb = null ∨ s.currentPcb ∈ s.pcbs
  running : s.kidle = 0 → s.currentPcb ∈ s.pcbs

/-- Where the CSRs of the current process are parked is no part of other fields. -/
theorem Seated.parked_apart (h : s.Seated) (hp : p ∈ s.pcbs) {n : Nat} (hi : i + n ≤ pcbMepc) :
    (part s.currentPcb pcbMepc 12).Apart (part p i n) := by
  rcases h.current with hnull | hcur
  · rw [hnull]
    intro x hx hx'
    have hlow : lowSpan.Has x := has_of_part hx (by decide)
    exact h.placed.pcbs_low p hp x (has_of_part hx' (hi.trans (by decide))) hlow
  · exact h.placed.part_apart hcur hp (Or.inr hi) (by decide) (hi.trans (by decide))

theorem KeepsContexts.word (h : s.KeepsContexts t) (hp : p ∈ s.pcbs) (hi : i + 4 ≤ pcbNext) :
    word t.mem p i = word s.mem p i :=
  word_congr fun _ _ => h.bytes p hp _ (by omega)

/-- A store into the frame of a process leaves the other words alone. -/
theorem Placed.word_deliver (hpl : s.Placed) {v : Word} (hq : q ∈ s.pcbs) (hp : p ∈ s.pcbs)
    (hi : i + 4 ≤ 32 ∨ 36 ≤ i) (hi' : i + 4 ≤ pcbSize) :
    word (setWord s.mem q tfA0 v) p i = word s.mem p i := by
  refine (alters_setWord s.mem q tfA0 v).word (List.forall_mem_singleton.2 ?_)
  exact hpl.part_apart hq hp (Or.symm hi) (by decide) hi'

/-- The place of a register other than `a0`. -/
theorem tf_apart_a0 (hr : r ∈ trapFrame) (hne : r ≠ .a0) : tf r + 4 ≤ 32 ∨ 36 ≤ tf r :=
  tf_places.apart r hr .a0 (by decide) hne

/-! ## Fork -/

section Fork

variable {g : ForkGrants} (hpl : s.Placed) (hcur : s.currentPcb ∈ s.pcbs) (hpcb : s.Grants g.pcb pcbSize)
  (hregion : (s.allocPcb g.pcb).Grants g.region memoryRegionStructSize) (hg : g.Enough)
  (hsize : g.a2.toNat = pcbForkMemCpySize)
  (htext : s.ptext s.currentPcb = null ∨ s.ptext s.currentPcb ∈ s.regions)

include hpl hcur hpcb hregion hg hsize htext

/-- What a fork leaves in the PCBs handed out before: all words up to `PCB_NEXT` but the result. -/
theorem fork_word (hp : p ∈ s.pcbs) (hi : i + 4 ≤ 32 ∨ 36 ≤ i) (hi' : i + 4 ≤ pcbNext) :
    word (s.ecallFork s.currentPcb g).mem p i = word s.mem p i := by
  have hhi : i + 4 ≤ pcbSize := hi'.trans (by decide)
  refine (ecallFork_alters hg (hsize.trans_le (by decide))).word ?_
  simp only [forkSpans, List.forall_mem_cons]
  refine ⟨(hpl.outside_count (hpl.regionOutside htext)).spares hhi p hp,
    (forkRegion_apart hregion hg).1.spares hhi p hp,
    (hpl.outside_of_grants hpcb (by decide)).spares hhi p hp,
    hpl.part_apart hcur hp hi.symm (by decide) hhi, hpl.part_apart hcur hp (Or.inr hi') (by decide) hhi,
    by simp⟩

variable (hdata : s.pdata s.currentPcb ∈ s.regions)
include hdata

/-- The result in the parent. -/
theorem fork_parent_a0 : word (s.ecallFork s.currentPcb g).mem s.currentPcb tfA0 =
    BitVec.setWidth 32 (BitVec.setWidth 8 (s.pcbNextPid + 1)) := by
  have hcopied := ecallFork_copied hpl hcur hpcb hregion hg htext hsize hdata
  have hforked := ecallFork_forked hpl hcur hpcb hregion hg (hsize.trans_le (by decide))
    (hpl.regionOutside htext)
  rw [hcopied.parent_a0, hforked.child_pid hsize.le]

/-- The frame of the child. -/
theorem fork_child_word (hr : r ∈ trapFrame) (hne : r ≠ .a0) :
    word (s.ecallFork s.currentPcb g).mem g.pcb (tf r) = word s.mem s.currentPcb (tf r) := by
  have hcopied := ecallFork_copied hpl hcur hpcb hregion hg htext hsize hdata
  have hle := tf_le hr
  have hap := tf_apart_a0 hr hne
  refine word_congr fun k hk => hcopied.frame _ ?_ ?_
  · rw [trapFrameSize]
    omega
  · rw [tfA0]
    omega

end Fork

theorem fork_books {g : ForkGrants} (hg : g.Enough) :
    (s.ecallFork p g).currentPcb = s.currentPcb ∧ (s.ecallFork p g).kidle = s.kidle ∧
      (s.ecallFork p g).csr = s.csr ∧ (s.ecallFork p g).pcbs = g.pcb :: s.pcbs := by
  rw [ecallFork_eq hg]
  exact ⟨rfl, rfl, rfl, if_neg hg.2.1⟩

/-! ## The end of a load -/

section Loaded

variable {image : ProcessImage} {d : Word} (hpl : s.Placed) (hq : q ∈ s.pcbs)
  (htext : s.ptext q = null ∨ s.ptext q ∈ s.regions) (hdata : s.pdata q = null ∨ s.pdata q ∈ s.regions)

include hpl hq htext hdata

/-- The frames stay. -/
theorem loaded_frame (hp : p ∈ s.pcbs) (hi : i + 4 ≤ 120) :
    word (s.elfFinishDone q image d).mem p i = word s.mem p i := by
  have hhi : i + 4 ≤ pcbSize := hi.trans (by decide)
  refine (elfFinishDone_alters hpl hq (hpl.regionOutside htext)).word ?_
  simp only [finishSpans, List.forall_mem_cons]
  refine ⟨(hpl.outside_count (hpl.regionOutside htext)).spares hhi p hp,
    (hpl.outside_count (hpl.regionOutside hdata)).spares hhi p hp, hpl.part_apart hq hp ?_ (by decide) hhi,
    hpl.part_apart hq hp ?_ (by decide) hhi, hpl.part_apart hq hp ?_ (by decide) hhi, by simp⟩
  · exact Or.inr hi
  · exact Or.inr (hi.trans (by decide))
  · exact Or.inr (hi.trans (by decide))

/-- The PCBs of other processes stay. -/
theorem loaded_other (hp : p ∈ s.pcbs) (hne : p ≠ q) (hi : i + 4 ≤ pcbSize) :
    word (s.elfFinishDone q image d).mem p i = word s.mem p i :=
  (elfFinishDone_alters hpl hq (hpl.regionOutside htext)).word
    (finish_spares_ne hpl hq (hpl.regionOutside htext) (hpl.regionOutside hdata) hp hne hi)

/-- The new stack pointer is there to stay. -/
theorem loaded_mscratch : word (s.elfFinishDone q image d).mem q pcbMscratch =
    image.pdataStart + word s.mem image.ptextMemoryRegion memoryRegionSize := by
  have hstack : word (s.finishStack q image).mem q pcbMscratch =
      image.pdataStart + word s.mem image.ptextMemoryRegion memoryRegionSize := word_setWord _ _ _ _
  have htext' : word (s.finishText q image).mem q pcbMscratch = word (s.finishStack q image).mem q pcbMscratch := by
    rw [finishText, finishStack_ptext]
    exact (releaseMemorySegment_alters _ _).word (List.forall_mem_singleton.2
      ((hpl.outside_count (hpl.regionOutside htext)).spares (by decide) q hq))
  have hrelease : word (s.finishRelease q image).mem q pcbMscratch = word (s.finishText q image).mem q pcbMscratch := by
    rw [finishRelease, finishText_pdata hpl hq (hpl.regionOutside htext)]
    exact (releaseMemorySegment_alters _ _).word (List.forall_mem_singleton.2
      ((hpl.outside_count (hpl.regionOutside hdata)).spares (by decide) q hq))
  rw [elfFinishDone_eq, ← hstack, ← htext', ← hrelease]
  simp (disch := decide) only [finishStores, word_setWord_ne, word_setByte_ne]

omit hpl hq htext hdata in
theorem loaded_mepc : word (s.elfFinishDone q image d).mem q pcbMepc = image.mepc := by
  rw [elfFinishDone_eq]
  simp (disch := decide) only [finishStores, word_setWord_ne, word_setByte_ne, word_setWord]

end Loaded

/-! ## What the kernel does and what it means to do -/

theorem effect_fork_child {g : ForkGrants} {ctx : Ptr → Context} :
    (Work.fork g).effect s ctx g.pcb = (ctx s.currentPcb).give 0 := Function.update_self _ _ _

theorem effect_fork_parent {g : ForkGrants} {ctx : Ptr → Context} (hne : s.currentPcb ≠ g.pcb) :
    (Work.fork g).effect s ctx s.currentPcb = (ctx s.currentPcb).give
      (BitVec.setWidth 32 (BitVec.setWidth 8 (s.pcbNextPid + 1))) := by
  rw [Work.effect, Function.update_of_ne hne, Function.update_self]

theorem effect_fork_other {g : ForkGrants} {ctx : Ptr → Context} (hne : p ≠ s.currentPcb) (hne' : p ≠ g.pcb) :
    (Work.fork g).effect s ctx p = ctx p := by
  rw [Work.effect, Function.update_of_ne hne', Function.update_of_ne hne]

theorem give_a0 (x : Context) (v : Word) : (x.give v).reg .a0 = v := by simp [Context.give]

theorem give_of_ne (x : Context) (v : Word) (h : r ≠ .a0) : (x.give v).reg r = x.reg r := if_neg h

/-- **The registers of the frame.** -/
theorem Works.frame (h : s.Works idle K e t) (hs : s.Seated) (hp : p ∈ t.pcbs) :
    (t.context p).SameFrame (e.effect s s.context p) := by
  have hpl := hs.placed
  intro r hr
  rw [context_reg hr]
  cases h with
  | others h =>
    rw [h.pcbs] at hp
    exact (h.word hp ((tf_le hr).trans (by decide))).trans (context_reg hr).symm
  | deliver q v hq =>
    by_cases hpq : p = q
    · subst hpq
      rw [Work.effect, Function.update_self]
      by_cases hne : r = .a0
      · rw [hne, give_a0, tf_a0]
        exact word_setWord _ _ _ _
      · rw [give_of_ne _ _ hne, context_reg hr]
        exact hpl.word_deliver hq hq (tf_apart_a0 hr hne) ((tf_le hr).trans (by decide))
    · rw [Work.effect, Function.update_of_ne hpq, context_reg hr]
      refine word_setWord_apart (hpl.apart hq hp (Ne.symm hpq)) (by decide) ((tf_le hr).trans (by decide))
  | ecall hrun =>
    by_cases hpq : p = s.currentPcb
    · subst hpq
      rw [Work.effect, Function.update_self]
      exact (context_reg hr).symm
    · rw [Work.effect, Function.update_of_ne hpq]
      exact (context_reg hr).symm
  | fork g hrun hpcb hregion hg hslot hsize htext hdata =>
    have hmem := hs.running hrun
    have hchild : s.currentPcb ≠ g.pcb := hpl.ne_of_grants hpcb hmem
    rw [(fork_books hg).2.2.2] at hp
    by_cases hpc : p = g.pcb
    · subst hpc
      rw [effect_fork_child]
      by_cases hne : r = .a0
      · rw [hne, give_a0, tf_a0]
        exact (ecallFork_copied hpl hmem hpcb hregion hg htext hsize hdata).child_a0
      · rw [give_of_ne _ _ hne, context_reg hr]
        exact fork_child_word hpl hmem hpcb hregion hg hsize htext hdata hr hne
    have hp' : p ∈ s.pcbs := (List.mem_cons.1 hp).resolve_left hpc
    by_cases hpp : p = s.currentPcb
    · subst hpp
      rw [effect_fork_parent hchild]
      by_cases hne : r = .a0
      · rw [hne, give_a0, tf_a0]
        exact fork_parent_a0 hpl hmem hpcb hregion hg hsize htext hdata
      · rw [give_of_ne _ _ hne, context_reg hr]
        exact fork_word hpl hmem hpcb hregion hg hsize htext hmem (tf_apart_a0 hr hne)
          ((tf_le hr).trans (by decide))
    · rw [effect_fork_other hpp hpc, context_reg hr]
      have hother := (ecallFork_copied hpl hmem hpcb hregion hg htext hsize hdata).others p hp' hpp
      have hle := tf_le hr
      exact word_congr fun k hk => hother _ (by rw [pcbSize]; omega)
  | loaded q image d hq hrun htext hdata =>
    rw [(elfFinishDone_books s q image d).pcbs] at hp
    have hword : word (s.elfFinishDone q image d).mem p (tf r) = word s.mem p (tf r) :=
      loaded_frame hpl hq htext hdata hp (tf_le hr)
    refine hword.trans ?_
    by_cases hpq : p = q
    · subst hpq
      rw [Work.effect, Function.update_self]
      exact (context_reg hr).symm.trans (if_neg (ne_sp hr)).symm
    · rw [Work.effect, Function.update_of_ne hpq, context_reg hr]
  | free q hq => exact (context_reg hr).symm
  | schedule h hcur' =>
    obtain ⟨a0, -, hdecided⟩ := schedule_decided h
    rw [hdecided.pcbs] at hp
    refine (hdecided.alters.word (List.forall_mem_singleton.2 ?_)).trans (context_reg hr).symm
    exact hs.parked_apart hp (tf_le hr)

end Kernel

/-! ## Switches -/

/-- Where the process at `p` is, and its stack pointer, as the scheduler sees them. -/
def Machine.control (s : Machine) (p : Ptr) : Word × Word :=
  if s.kidle = 0 ∧ p = s.currentPcb then (s.csr.mepc, s.csr.mscratch)
  else ((s.pcb p).mepc, (s.pcb p).mscratch)

section Switch

variable {idle : Word} {m m' : Machine} {a0 p : Ptr}

theorem control_of_running (hk : m.kidle = 0) (hp : p = m.currentPcb) :
    m.control p = (m.csr.mepc, m.csr.mscratch) := if_pos ⟨hk, hp⟩

theorem control_of_parked (h : ¬ (m.kidle = 0 ∧ p = m.currentPcb)) :
    m.control p = ((m.pcb p).mepc, (m.pcb p).mscratch) := if_neg h

/-- **A safe switch moves no process.** -/
theorem contextSwitch_control (hcall : Callable m a0) (hsafe : SwitchSafe m a0) (hp : p ≠ null) :
    (contextSwitch idle a0 m).control p = m.control p := by
  by_cases ha : a0 = null
  · -- process to idle
    have hk : m.kidle = 0 := not_not.1 fun hk => hcall.1 hk ha
    subst ha
    rw [contextSwitch_null]
    simp only
    split
    · rename_i hnull
      rw [control_of_parked fun h => absurd (show (1 : Byte) = 0 from h.1) (by decide),
        control_of_parked fun h => hp (h.2.trans hnull)]
    · rw [control_of_parked fun h => absurd (show (1 : Byte) = 0 from h.1) (by decide)]
      by_cases hcur : p = m.currentPcb
      · rw [control_of_running hk hcur, hcur]
        simp [Machine.storeCsr]
      · rw [storeCsr_pcb_of_ne hcur, control_of_parked fun h => hcur h.2]
  by_cases hk : m.kidle = 0
  · rw [contextSwitch_of_process ha hk]
    have hsafe' := hsafe hk ha
    by_cases hself : a0 = m.currentPcb
    · rw [if_pos hself] at hsafe'
      by_cases hpa : p = a0
      · rw [control_of_running hk (hpa.trans hself), ← hsafe'.1, ← hsafe'.2.1]
        exact control_of_running hk hpa
      · rw [control_of_parked fun h => hpa (h.2.trans hself.symm), control_of_parked fun h => hpa h.2,
          storeCsr_pcb_of_ne fun h => hpa (h.trans hself.symm)]
        rfl
    · rw [if_neg hself] at hsafe'
      by_cases hpa : p = a0
      · subst hpa
        rw [control_of_parked (m := m) fun h => hself h.2]
        exact control_of_running hk rfl
      · rw [control_of_parked fun h => hpa h.2]
        by_cases hcur : p = m.currentPcb
        · rw [control_of_running hk hcur, hcur, hsafe']
          simp [Machine.storeCsr]
        · rw [storeCsr_pcb_of_ne hcur, control_of_parked fun h => hcur h.2]
          rfl
  · rw [contextSwitch_of_idle ha hk, control_of_parked fun h => hk h.1]
    by_cases hpa : p = a0
    · subst hpa
      exact control_of_running rfl rfl
    · exact control_of_parked fun h => hpa h.2

end Switch

namespace Kernel

variable {idle K : Word} {s t : Kernel} {e : Work} {p q : Ptr} {r : Reg} {i : Nat}

theorem context_pc : (s.context p).pc = (s.machine.control p).1 := by
  by_cases h : s.Running p
  · rw [control_of_running (m := s.machine) h.1 h.2]
    exact if_pos h
  · rw [control_of_parked (m := s.machine) h]
    exact if_neg h

theorem context_sp : (s.context p).reg .sp = (s.machine.control p).2 := by
  have hsp : (s.context p).reg .sp = if s.Running p then s.csr.mscratch else word s.mem p pcbMscratch := by
    simp only [context, ↓reduceIte]
  rw [hsp]
  by_cases h : s.Running p
  · rw [control_of_running (m := s.machine) h.1 h.2]
    exact if_pos h
  · rw [control_of_parked (m := s.machine) h]
    exact if_neg h

/-- The switch that a decision of the scheduler leads to, if there is one, is safe. -/
def SwitchesSafely (s : Kernel) : Prop := ∀ a0, scheduleNext s.machine = some a0 → SwitchSafe s.machine a0

/-- What a decision leaves of the state, by the machine that the scheduler leaves. -/
theorem schedule_machine (h : s.schedule idle = some t) : ∃ m, RiscyOS.schedule idle s.machine = some m ∧
    t.currentPcb = m.currentPcb ∧ t.kidle = m.kidle ∧ t.csr = m.csr ∧
      t.mem = if s.currentPcb = null then s.mem else
        parkCsr s.mem s.currentPcb (m.pcb s.currentPcb).csr := by
  rw [Kernel.schedule, Option.map_eq_some_iff] at h
  obtain ⟨m, hm, rfl⟩ := h
  exact ⟨m, hm, rfl, rfl, rfl, rfl⟩

/-- The context switch touches one PCB at most. -/
theorem schedule_pcb {m : Machine} (h : RiscyOS.schedule idle s.machine = some m) (hp : p ≠ s.currentPcb) :
    m.pcb p = s.machine.pcb p := by
  obtain ⟨a0, -, ⟨-, -, rfl⟩ | ⟨-, rfl⟩⟩ := schedule_cases h
  · rfl
  · exact contextSwitch_pcb_of_ne hp

/-- What is parked is parked where the scheduler has put it. -/
theorem schedule_parked {m : Machine} (hs : s.Seated) (hm : RiscyOS.schedule idle s.machine = some m)
    (hp : p ∈ s.pcbs) (hmem : t.mem = if s.currentPcb = null then s.mem else
      parkCsr s.mem s.currentPcb (m.pcb s.currentPcb).csr) :
    (t.machine.pcb p).mepc = (m.pcb p).mepc ∧ (t.machine.pcb p).mscratch = (m.pcb p).mscratch := by
  by_cases hcur : p = s.currentPcb
  · have hne : s.currentPcb ≠ null := fun h => hs.placed.null_notMem (h ▸ hcur ▸ hp)
    rw [if_neg hne] at hmem
    simp (disch := decide) only [machine, pcbAt, hcur, hmem, parkCsr, Pcb.csr, word_setWord_ne, word_setWord,
      and_self]
  · have hword : ∀ {i : Nat}, i + 4 ≤ pcbSize → word t.mem p i = word s.mem p i := by
      intro i hi
      rw [hmem]
      split
      · rfl
      · rename_i hne
        have hap := hs.placed.apart (hs.current.resolve_left hne) hp (Ne.symm hcur)
        exact (parkCsr_alters _ _ _).word (List.forall_mem_singleton.2 (hap.part (by decide) hi))
    rw [schedule_pcb hm hcur]
    exact ⟨hword (by decide), hword (by decide)⟩

/-- **A decision of the scheduler moves no process**, if it leads to a safe switch. -/
theorem schedule_control (hs : s.Seated) (h : s.schedule idle = some t) (hp : p ∈ s.pcbs)
    (hsafe : s.SwitchesSafely) : t.machine.control p = s.machine.control p := by
  obtain ⟨m, hm, hcur, hk, hcsr, hmem⟩ := schedule_machine h
  have hnull : p ≠ null := fun h => hs.placed.null_notMem (h ▸ hp)
  have hcontrol : m.control p = s.machine.control p := by
    obtain ⟨a0, hnext, ⟨-, -, rfl⟩ | ⟨hcall, rfl⟩⟩ := schedule_cases hm
    · rfl
    · exact contextSwitch_control hcall (hsafe a0 hnext) hnull
  rw [← hcontrol]
  by_cases hrun : m.kidle = 0 ∧ p = m.currentPcb
  · rw [control_of_running hrun.1 hrun.2, ← hcsr]
    exact control_of_running (hk.trans hrun.1) (hrun.2.trans hcur.symm)
  · obtain ⟨hmepc, hmscratch⟩ := schedule_parked hs hm hp hmem
    rw [control_of_parked hrun, ← hmepc, ← hmscratch]
    refine control_of_parked fun h => hrun ⟨hk.symm.trans h.1, h.2.trans hcur⟩

theorem context_of_running (h : s.Running p) :
    (s.context p).pc = s.csr.mepc ∧ (s.context p).reg .sp = s.csr.mscratch := by
  rw [context_pc, context_sp, control_of_running (m := s.machine) h.1 h.2]
  exact ⟨rfl, rfl⟩

theorem context_of_parked (h : ¬ s.Running p) :
    (s.context p).pc = word s.mem p pcbMepc ∧ (s.context p).reg .sp = word s.mem p pcbMscratch := by
  rw [context_pc, context_sp, control_of_parked (m := s.machine) h]
  exact ⟨rfl, rfl⟩

/-- Where nothing that matters has changed. -/
theorem sameControl (hrun : t.Running p ↔ s.Running p) (hcsr : t.csr = s.csr)
    (hmepc : word t.mem p pcbMepc = word s.mem p pcbMepc)
    (hmscratch : word t.mem p pcbMscratch = word s.mem p pcbMscratch) :
    (t.context p).SameControl (s.context p) := by
  by_cases h : s.Running p
  · obtain ⟨hpc, hsp⟩ := context_of_running h
    obtain ⟨hpc', hsp'⟩ := context_of_running (hrun.2 h)
    exact ⟨by rw [hpc, hpc', hcsr], by rw [hsp, hsp', hcsr]⟩
  · obtain ⟨hpc, hsp⟩ := context_of_parked h
    obtain ⟨hpc', hsp'⟩ := context_of_parked (mt hrun.1 h)
    exact ⟨by rw [hpc, hpc', hmepc], by rw [hsp, hsp', hmscratch]⟩

theorem give_control (x : Context) (v : Word) : x.SameControl (x.give v) :=
  ⟨rfl, (give_of_ne x v (by decide)).symm⟩

/-- **The `pc` and the stack pointer.** -/
theorem Works.control (h : s.Works idle K e t) (hs : s.Seated) (hp : p ∈ t.pcbs)
    (hsafe : e = .schedule → s.SwitchesSafely) : (t.context p).SameControl (e.effect s s.context p) := by
  have hpl := hs.placed
  cases h with
  | others h =>
    rw [h.pcbs] at hp
    refine sameControl ?_ h.csr (h.word hp (by decide)) (h.word hp (by decide))
    rw [Running, Running, h.kidle, h.currentPcb]
  | deliver q v hq =>
    have hsame : (Kernel.context { s with mem := setWord s.mem q tfA0 v } p).SameControl (s.context p) :=
      sameControl Iff.rfl rfl (hpl.word_deliver hq hp (by decide) (by decide))
        (hpl.word_deliver hq hp (by decide) (by decide))
    by_cases hpq : p = q
    · subst hpq
      rw [Work.effect, Function.update_self]
      exact hsame.trans (give_control _ _)
    · rw [Work.effect, Function.update_of_ne hpq]
      exact hsame
  | ecall hrun =>
    by_cases hpq : p = s.currentPcb
    · subst hpq
      obtain ⟨hpc, hsp⟩ := context_of_running (s := s) ⟨hrun, rfl⟩
      obtain ⟨hpc', hsp'⟩ := context_of_running (s := s.ecall) ⟨hrun, rfl⟩
      rw [Work.effect, Function.update_self]
      exact ⟨hpc'.trans (congrArg (· + 4) hpc.symm), hsp'.trans hsp.symm⟩
    · rw [Work.effect, Function.update_of_ne hpq]
      obtain ⟨hpc, hsp⟩ := context_of_parked (s := s) (p := p) fun h => hpq h.2
      obtain ⟨hpc', hsp'⟩ := context_of_parked (s := s.ecall) (p := p) fun h => hpq h.2
      exact ⟨hpc'.trans hpc.symm, hsp'.trans hsp.symm⟩
  | fork g hrun hpcb hregion hg hslot hsize htext hdata =>
    have hmem := hs.running hrun
    have hchild : s.currentPcb ≠ g.pcb := hpl.ne_of_grants hpcb hmem
    obtain ⟨hcur, hk, hcsr, hpcbs⟩ := fork_books (s := s) (p := s.currentPcb) hg
    rw [hpcbs] at hp
    by_cases hpc : p = g.pcb
    · subst hpc
      have hcopied := ecallFork_copied hpl hmem hpcb hregion hg htext hsize hdata
      obtain ⟨hpc, hsp⟩ := context_of_running (s := s) ⟨hrun, rfl⟩
      obtain ⟨hpc', hsp'⟩ := context_of_parked (s := s.ecallFork s.currentPcb g) (p := g.pcb)
        fun h => hchild (h.2.trans hcur).symm
      rw [effect_fork_child]
      refine Context.SameControl.trans ⟨?_, ?_⟩ (give_control _ _)
      · rw [hpc, hpc', hcopied.mepc]
      · rw [hsp, hsp', hcopied.mscratch]
    have hp' : p ∈ s.pcbs := (List.mem_cons.1 hp).resolve_left hpc
    have hsame : ((s.ecallFork s.currentPcb g).context p).SameControl (s.context p) := by
      refine sameControl ?_ hcsr ?_ ?_
      · rw [Running, Running, hk, hcur]
      · exact fork_word hpl hmem hpcb hregion hg hsize htext hp' (by decide) (by decide)
      · exact fork_word hpl hmem hpcb hregion hg hsize htext hp' (by decide) (by decide)
    by_cases hpp : p = s.currentPcb
    · subst hpp
      rw [effect_fork_parent hchild]
      exact hsame.trans (give_control _ _)
    · rw [effect_fork_other hpp hpc]
      exact hsame
  | loaded q image d hq hrun htext hdata =>
    have hbooks := elfFinishDone_books s q image d
    rw [hbooks.pcbs] at hp
    have hrunning : ∀ p, (s.elfFinishDone q image d).Running p ↔ s.Running p := fun p => by
      rw [Running, Running, hbooks.kidle, hbooks.currentPcb]
    by_cases hpq : p = q
    · subst hpq
      obtain ⟨hpc, hsp⟩ := context_of_parked (mt (hrunning p).1 hrun)
      rw [Work.effect, Function.update_self]
      refine ⟨?_, ?_⟩
      · rw [hpc, loaded_mepc]
      · rw [hsp, loaded_mscratch hpl hq htext hdata]
        rfl
    · rw [Work.effect, Function.update_of_ne hpq]
      refine sameControl (hrunning p) hbooks.csr ?_ ?_
      · exact loaded_other hpl hq htext hdata hp hpq (by decide)
      · exact loaded_other hpl hq htext hdata hp hpq (by decide)
  | free q hq => exact ⟨rfl, rfl⟩
  | schedule h hcur' =>
    obtain ⟨a0, -, hdecided⟩ := schedule_decided h
    rw [hdecided.pcbs] at hp
    have hcontrol := schedule_control hs h hp (hsafe rfl)
    rw [Work.effect, Context.SameControl, context_pc, context_pc, context_sp, context_sp, hcontrol]
    exact ⟨rfl, rfl⟩

end Kernel

end RiscyOS
