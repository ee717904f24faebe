import RiscyOS.Arch.Contexts

/-!
# Every process has the processor to itself

Processes compute, traps interrupt them, the kernel does this and that and hands the processor to
somebody else.  `Run` follows any sequence of such steps and keeps a ledger beside it: what each process
would have in its registers if it had a processor of its own, on which nothing happens but its own
computation and what the kernel means to do to it (`Work.effect`).

**The processor is where the ledger says** (`processor_own`).  For the registers of the trap frame this
holds in every run, whatever the scheduler decides.  For the `pc` and the stack pointer it holds in the
runs whose switches are safe: those from one process straight to another are not.
-/

set_option autoImplicit false

namespace RiscyOS

open Memory Riscv

namespace Kernel

variable {idle K : Word} {s t : Kernel} {e : Work} {p q : Ptr} {r : Reg} {ctx ctx' : Ptr → Context}

/-! ## What work leaves in place -/

theorem Works.seated (h : s.Works idle K e t) (hs : s.Seated) : t.Seated := by
  cases h with
  | others h =>
    refine ⟨h.placed, ?_, fun hk => ?_⟩
    · rw [h.currentPcb, h.pcbs]
      exact hs.current
    · rw [h.currentPcb, h.pcbs]
      exact hs.running (h.kidle.1 hk)
  | deliver q v hq => exact ⟨hs.placed.congr rfl rfl, hs.current, hs.running⟩
  | ecall hrun => exact ⟨hs.placed.congr rfl rfl, hs.current, hs.running⟩
  | fork g hrun hpcb hregion hg hslot hsize htext hdata =>
    obtain ⟨hcur, hk, -, hpcbs⟩ := fork_books (s := s) (p := s.currentPcb) hg
    have halloc : (s.allocPcb g.pcb).Placed := hs.placed.cons_pcb hpcb hg.2.1 (if_neg hg.2.1) rfl
    have hmem : (s.ecallFork s.currentPcb g).currentPcb ∈ (s.ecallFork s.currentPcb g).pcbs := by
      rw [hcur, hpcbs]
      exact List.mem_cons_of_mem _ (hs.running hrun)
    refine ⟨?_, Or.inr hmem, fun _ => hmem⟩
    rw [ecallFork_eq hg]
    exact halloc.cons_region hregion hg.2.2 rfl rfl
  | loaded q image d hq hrun htext hdata =>
    have hbooks := elfFinishDone_books s q image d
    refine ⟨hs.placed.sublist (by rw [hbooks.pcbs]) (finishRelease_regions s q image), ?_, fun hk => ?_⟩
    · rw [hbooks.currentPcb, hbooks.pcbs]
      exact hs.current
    · rw [hbooks.currentPcb, hbooks.pcbs]
      exact hs.running (hbooks.kidle.symm.trans hk)
  | free q hq =>
    have hkept : ∀ {x}, x ≠ q → x ∈ s.pcbs → x ∈ s.pcbs.erase q := fun hx hmem =>
      (List.mem_erase_of_ne hx).2 hmem
    refine ⟨hs.placed.sublist List.erase_sublist (List.Sublist.refl _), ?_, fun hk => ?_⟩
    · exact hs.current.imp id (hkept (Ne.symm hq))
    · exact hkept (Ne.symm hq) (hs.running hk)
  | schedule h hcur =>
    obtain ⟨a0, -, hdecided⟩ := schedule_decided h
    have hcurrent : t.currentPcb = null ∨ t.currentPcb ∈ t.pcbs := by
      rw [hdecided.pcbs]
      rcases hcur with hcur | hcur
      · rw [hcur]
        exact hs.current
      · exact Or.inr hcur
    refine ⟨hs.placed.congr hdecided.pcbs hdecided.regions, hcurrent, fun hk => ?_⟩
    have ha := hdecided.kidle hk
    refine hcurrent.resolve_left fun hnull => ha ?_
    rw [hdecided.currentPcb, if_neg ha] at hnull
    exact hnull

/-- New PCBs are not on top of the machine stack. -/
theorem Works.slot (h : s.Works idle K e t)
    (hslot : ∀ p ∈ s.pcbs, (Core.stackSlot K).Apart (pcbSpan p)) (hp : p ∈ t.pcbs) :
    (Core.stackSlot K).Apart (pcbSpan p) := by
  cases h with
  | others h => exact hslot p (h.pcbs ▸ hp)
  | deliver q v hq => exact hslot p hp
  | ecall hrun => exact hslot p hp
  | fork g hrun hpcb hregion hg hslot' hsize htext hdata =>
    rw [(fork_books hg).2.2.2] at hp
    rcases List.mem_cons.1 hp with rfl | hp
    · exact hslot'
    · exact hslot p hp
  | loaded q image d hq hrun htext hdata =>
    exact hslot p ((elfFinishDone_books s q image d).pcbs ▸ hp)
  | free q hq => exact hslot p (List.mem_of_mem_erase hp)
  | schedule h hcur =>
    obtain ⟨a0, -, hdecided⟩ := schedule_decided h
    exact hslot p (hdecided.pcbs ▸ hp)

/-- A property of contexts that is kept by the same change on either side. -/
theorem Works.effect_congr {R : Context → Context → Prop} (h : s.Works idle K e t) (hs : s.Seated)
    (hgive : ∀ {x y : Context} (v : Word), R x y → R (x.give v) (y.give v))
    (hpc : ∀ {x y : Context}, R x y → R { x with pc := x.pc + 4 } { y with pc := y.pc + 4 })
    (hload : ∀ {x y : Context} (pc sp : Word), R x y →
      R ⟨pc, fun r => if r = .sp then sp else x.reg r⟩ ⟨pc, fun r => if r = .sp then sp else y.reg r⟩)
    (hctx : ∀ p ∈ s.pcbs, R (ctx p) (ctx' p)) (hp : p ∈ t.pcbs) :
    R (e.effect s ctx p) (e.effect s ctx' p) := by
  cases h with
  | others h => exact hctx p (h.pcbs ▸ hp)
  | deliver q v hq =>
    by_cases hpq : p = q
    · subst hpq
      rw [Work.effect, Work.effect, Function.update_self, Function.update_self]
      exact hgive v (hctx p hq)
    · rw [Work.effect, Work.effect, Function.update_of_ne hpq, Function.update_of_ne hpq]
      exact hctx p hp
  | ecall hrun =>
    by_cases hpq : p = s.currentPcb
    · subst hpq
      rw [Work.effect, Work.effect, Function.update_self, Function.update_self]
      exact hpc (hctx _ hp)
    · rw [Work.effect, Work.effect, Function.update_of_ne hpq, Function.update_of_ne hpq]
      exact hctx p hp
  | fork g hrun hpcb hregion hg hslot' hsize htext hdata =>
    have hmem := hs.running hrun
    have hchild : s.currentPcb ≠ g.pcb := hs.placed.ne_of_grants hpcb hmem
    rw [(fork_books hg).2.2.2] at hp
    by_cases hpc : p = g.pcb
    · subst hpc
      rw [effect_fork_child, effect_fork_child]
      exact hgive 0 (hctx _ hmem)
    by_cases hpp : p = s.currentPcb
    · subst hpp
      rw [effect_fork_parent hchild, effect_fork_parent hchild]
      exact hgive _ (hctx _ hmem)
    · rw [effect_fork_other hpp hpc, effect_fork_other hpp hpc]
      exact hctx p ((List.mem_cons.1 hp).resolve_left hpc)
  | loaded q image d hq hrun htext hdata =>
    rw [(elfFinishDone_books s q image d).pcbs] at hp
    by_cases hpq : p = q
    · subst hpq
      rw [Work.effect, Work.effect, Function.update_self, Function.update_self]
      exact hload _ _ (hctx p hq)
    · rw [Work.effect, Work.effect, Function.update_of_ne hpq, Function.update_of_ne hpq]
      exact hctx p hp
  | free q hq => exact hctx p (List.mem_of_mem_erase hp)
  | schedule h hcur =>
    obtain ⟨a0, -, hdecided⟩ := schedule_decided h
    exact hctx p (hdecided.pcbs ▸ hp)

/-- On the registers of the frame. -/
theorem Works.effect_frame (h : s.Works idle K e t) (hs : s.Seated)
    (hctx : ∀ p ∈ s.pcbs, (ctx p).SameFrame (ctx' p)) (hp : p ∈ t.pcbs) :
    (e.effect s ctx p).SameFrame (e.effect s ctx' p) := by
  refine h.effect_congr hs (fun v hxy r hr => ?_) (fun hxy => hxy) (fun pc sp hxy r hr => ?_) hctx hp
  · by_cases hne : r = .a0
    · rw [hne, give_a0, give_a0]
    · rw [give_of_ne _ _ hne, give_of_ne _ _ hne]
      exact hxy r hr
  · exact (if_neg (ne_sp hr)).trans ((hxy r hr).trans (if_neg (ne_sp hr)).symm)

/-- On the `pc` and the stack pointer. -/
theorem Works.effect_control (h : s.Works idle K e t) (hs : s.Seated)
    (hctx : ∀ p ∈ s.pcbs, (ctx p).SameControl (ctx' p)) (hp : p ∈ t.pcbs) :
    (e.effect s ctx p).SameControl (e.effect s ctx' p) := by
  refine h.effect_congr hs (fun v hxy => ⟨hxy.1, ?_⟩) (fun hxy => ⟨congrArg (· + 4) hxy.1, hxy.2⟩)
    (fun pc sp hxy => ⟨rfl, rfl⟩) hctx hp
  rw [give_of_ne _ _ (by decide), give_of_ne _ _ (by decide)]
  exact hxy.2

end Kernel

namespace Core

variable {idle K : Word} {cond : Kernel → Prop} {c : Core} {ctx : Ptr → Context} {p : Ptr} {r : Reg}

/-- **The context of a process.**  If it is running, it is what the processor holds. -/
def context (c : Core) (p : Ptr) : Context :=
  if c.mode = .user ∧ c.kernel.Running p then ⟨c.pc, c.reg⟩ else c.kernel.context p

/-- The state is sound: the machine stack is at `K`, on nobody's PCB, and its pointer is in `MSCRATCH`
while it is not in use. -/
structure Sound (K : Word) (c : Core) : Prop where
  seated : c.kernel.Seated
  user : c.mode = .user → c.kernel.csr.mscratch = K
  machine : c.mode = .machine → c.reg .sp = K
  slot : ∀ p ∈ c.kernel.pcbs, (stackSlot K).Apart (pcbSpan p)

theorem context_user (hmode : c.mode = .user) (hrun : c.kernel.Running p) : c.context p = ⟨c.pc, c.reg⟩ :=
  if_pos ⟨hmode, hrun⟩

theorem context_parked (hrun : ¬ c.kernel.Running p) : c.context p = c.kernel.context p :=
  if_neg fun h => hrun h.2

theorem context_machine (hmode : c.mode = .machine) : c.context p = c.kernel.context p :=
  if_neg fun h => absurd (hmode.symm.trans h.1) (by decide)

theorem get_eq (h : r ≠ .zero) : c.get r = c.reg r := if_neg h

theorem ne_zero (hr : r ∈ trapFrame) : r ≠ .zero := fun h => absurd (h ▸ hr) (by decide)

/-! ## A trap -/

/-- When the trap is taken, before the first instruction of `mhandler`. -/
def taken (c : Core) (mstatus : Word) : Core :=
  { c with mode := .machine, kernel := { c.kernel with csr := { c.kernel.csr with mepc := c.pc, mstatus := mstatus } } }

/-- What `mhandler` has written by the time of its call, and what is where. -/
theorem trap_entered (h : c.Sound K) (hmode : c.mode = .user) (mstatus : Word) :
    ∃ S, (c.taken mstatus).Entered (c.trap mstatus) K S ∧
      (∀ b ∈ S, ∀ p ∈ c.kernel.pcbs, ¬ c.kernel.Running p → b.Apart (pcbSpan p)) ∧
      (c.kernel.kidle = 0 → ∀ r ∈ trapFrame,
        word (c.trap mstatus).kernel.mem c.kernel.currentPcb (tf r) = c.reg r) := by
  have hK : (c.taken mstatus).kernel.csr.mscratch = K := h.user hmode
  by_cases hk : c.kernel.kidle = 0
  · have hcur := h.seated.running hk
    have hframe : ∀ {b : Span} {p : Ptr}, b.Apart (pcbSpan p) → b.Apart (frameSpan p) := fun hap x hx hx' =>
      hap x hx (Nat.lt_of_lt_of_le hx' (show 120 ≤ pcbSize by decide))
    obtain ⟨hentered, hregs⟩ := mhandlerSave_running (c := c.taken mstatus) hK hk rfl
      (hframe (h.slot _ hcur))
    refine ⟨_, hentered, ?_, fun _ r hr => (hregs r hr).trans (get_eq (ne_zero hr))⟩
    simp only [List.forall_mem_cons]
    refine ⟨fun p hp _ => h.slot p hp, fun p hp hrun => ?_, by simp⟩
    have hap := h.seated.placed.apart hcur hp fun heq => hrun ⟨hk, heq.symm⟩
    exact (hframe hap.symm).symm
  · refine ⟨_, mhandlerSave_idle (c := c.taken mstatus) hK hk, ?_, fun h => absurd h hk⟩
    exact List.forall_mem_singleton.2 fun p hp _ => h.slot p hp

theorem Sound.trap (h : c.Sound K) (hmode : c.mode = .user) (mstatus : Word) : (c.trap mstatus).Sound K := by
  obtain ⟨S, hentered, -, -⟩ := trap_entered h hmode mstatus
  have hsp := hentered.sp
  rw [get_eq (by decide)] at hsp
  have hkernel := hentered.kernel
  have hmachine : (c.trap mstatus).mode = .machine := hentered.mode
  refine ⟨⟨?_, ?_, ?_⟩, fun hu => absurd (hmachine.symm.trans hu) (by decide), fun _ => hsp, ?_⟩
  · rw [hkernel]
    exact h.seated.placed.congr rfl rfl
  · rw [hkernel]
    exact h.seated.current
  · rw [hkernel]
    exact h.seated.running
  · rw [hkernel]
    exact h.slot

/-- **A trap changes no context.** -/
theorem trap_context (h : c.Sound K) (hmode : c.mode = .user) (mstatus : Word) (hp : p ∈ c.kernel.pcbs) :
    ((c.trap mstatus).context p).SameFrame (c.context p) ∧
      ((c.trap mstatus).context p).SameControl (c.context p) := by
  obtain ⟨S, hentered, hapart, hregs⟩ := trap_entered h hmode mstatus
  have hmachine : (c.trap mstatus).mode = .machine := hentered.mode
  have hrunning : (c.trap mstatus).kernel.Running p ↔ c.kernel.Running p := by
    rw [hentered.kernel]
    exact Iff.rfl
  have hcsr : (c.trap mstatus).kernel.csr = ⟨c.pc, mstatus, c.reg .sp⟩ := by
    rw [hentered.kernel]
    rfl
  rw [context_machine hmachine]
  by_cases hrun : c.kernel.Running p
  · rw [context_user hmode hrun]
    obtain ⟨hpc, hsp⟩ := Kernel.context_of_running (hrunning.2 hrun)
    refine ⟨fun r hr => ?_, ?_, ?_⟩
    · rw [Kernel.context_reg hr, hrun.2]
      exact hregs hrun.1 r hr
    · rw [hpc, hcsr]
    · rw [hsp, hcsr]
  · rw [context_parked hrun]
    have hword : ∀ {i : Nat}, i + 4 ≤ pcbSize →
        word (c.trap mstatus).kernel.mem p i = word c.kernel.mem p i := fun hi =>
      hentered.alters.word fun b hb x hx hx' => hapart b hb p hp hrun x hx (has_of_part hx' hi)
    obtain ⟨hpc, hsp⟩ := Kernel.context_of_parked hrun
    obtain ⟨hpc', hsp'⟩ := Kernel.context_of_parked (mt hrunning.1 hrun)
    refine ⟨fun r hr => ?_, ?_, ?_⟩
    · rw [Kernel.context_reg hr, Kernel.context_reg hr]
      exact hword ((Kernel.tf_le hr).trans (by decide))
    · rw [hpc, hpc', hword (by decide)]
    · rw [hsp, hsp', hword (by decide)]

/-! ## The return -/

theorem mret_left (c : Core) (reg : Reg → Word) (mstatus : Word) :
    (c.mret reg mstatus).reg .sp = c.kernel.csr.mscratch ∧ (c.mret reg mstatus).pc = c.kernel.csr.mepc ∧
      (c.mret reg mstatus).kernel = { c.kernel with csr := ⟨c.kernel.csr.mepc, mstatus, reg .sp⟩ } ∧
      (c.kernel.kidle = 0 → ∀ r ∈ trapFrame,
        (c.mret reg mstatus).reg r = word c.kernel.mem c.kernel.currentPcb (tf r)) := by
  have hleft : Left { c with reg := reg } (mhandlerRestore { c with reg := reg }) := by
    by_cases hk : c.kernel.kidle = 0
    · exact (mhandlerRestore_running (c := { c with reg := reg }) hk).1
    · exact mhandlerRestore_idle (c := { c with reg := reg }) hk
  have hsp := hleft.sp
  rw [get_eq (by decide)] at hsp
  refine ⟨hsp, ?_, ?_, fun hk r hr => ?_⟩
  · rw [mret, hleft.kernel]
  · rw [mret, hleft.kernel]
    rfl
  · have hregs := (mhandlerRestore_running (c := { c with reg := reg }) hk).2 r hr
    rwa [get_eq (ne_zero hr)] at hregs

theorem Sound.mret (h : c.Sound K) (hmode : c.mode = .machine) {reg : Reg → Word} (hsp : reg .sp = c.reg .sp)
    (mstatus : Word) : (c.mret reg mstatus).Sound K := by
  obtain ⟨-, -, hkernel, -⟩ := mret_left c reg mstatus
  refine ⟨⟨?_, ?_, ?_⟩, fun _ => ?_, fun hm => absurd (show Mode.user = .machine from hm) (by decide), ?_⟩
  · rw [hkernel]
    exact h.seated.placed.congr rfl rfl
  · rw [hkernel]
    exact h.seated.current
  · rw [hkernel]
    exact h.seated.running
  · rw [hkernel]
    exact hsp.trans (h.machine hmode)
  · rw [hkernel]
    exact h.slot

/-- **The return changes no context.** -/
theorem mret_context (hmode : c.mode = .machine) (reg : Reg → Word) (mstatus : Word) :
    ((c.mret reg mstatus).context p).SameFrame (c.context p) ∧
      ((c.mret reg mstatus).context p).SameControl (c.context p) := by
  obtain ⟨hsp, hpc, hkernel, hregs⟩ := mret_left c reg mstatus
  have hrunning : (c.mret reg mstatus).kernel.Running p ↔ c.kernel.Running p := by
    rw [hkernel]
    exact Iff.rfl
  rw [context_machine hmode]
  by_cases hrun : c.kernel.Running p
  · obtain ⟨hpc', hsp'⟩ := Kernel.context_of_running hrun
    rw [context_user rfl (hrunning.2 hrun)]
    refine ⟨fun r hr => ?_, hpc.trans hpc'.symm, hsp.trans hsp'.symm⟩
    rw [Kernel.context_reg hr, hrun.2]
    exact hregs hrun.1 r hr
  · obtain ⟨hpc', hsp'⟩ := Kernel.context_of_parked hrun
    obtain ⟨hpc'', hsp''⟩ := Kernel.context_of_parked (mt hrunning.1 hrun)
    rw [context_parked (mt hrunning.1 hrun)]
    refine ⟨fun r hr => ?_, ?_, ?_⟩
    · rw [Kernel.context_reg hr, Kernel.context_reg hr, hkernel]
    · rw [hpc', hpc'', hkernel]
    · rw [hsp', hsp'', hkernel]

/-! ## Runs -/

/-- The processor has computed something. -/
def computes (c : Core) (pc : Word) (reg : Reg → Word) (m : Mem) : Core :=
  { c with pc := pc, reg := reg, kernel := { c.kernel with mem := m } }

/-- **The states reached, each with its ledger.**  A process that is running may do anything to the
registers and to memory outside the PCBs; the kernel does one piece of work after another and comes back
from `trap_handler` with its stack as it was.  Decisions of the scheduler are made in states that meet the
condition. -/
inductive Run (idle K : Word) (cond : Kernel → Prop) : Core → (Ptr → Context) → Prop
  | start (c : Core) (h : c.Sound K) : Run idle K cond c c.context
  | compute {c : Core} {ctx : Ptr → Context} (h : Run idle K cond c ctx) (hmode : c.mode = .user) (pc : Word)
      (reg : Reg → Word) (m : Mem)
      (hmem : ∀ p ∈ c.kernel.pcbs, ∀ i < pcbSize, byte m p i = byte c.kernel.mem p i) :
      Run idle K cond (c.computes pc reg m)
        (if c.kernel.kidle = 0 then Function.update ctx c.kernel.currentPcb ⟨pc, reg⟩ else ctx)
  | trap {c : Core} {ctx : Ptr → Context} (h : Run idle K cond c ctx) (hmode : c.mode = .user)
      (mstatus : Word) : Run idle K cond (c.trap mstatus) ctx
  | work {c : Core} {ctx : Ptr → Context} {e : Kernel.Work} {t : Kernel} (h : Run idle K cond c ctx)
      (hmode : c.mode = .machine) (hwork : c.kernel.Works idle K e t) (hcond : e = .schedule → cond c.kernel) :
      Run idle K cond { c with kernel := t } (e.effect c.kernel ctx)
  | mret {c : Core} {ctx : Ptr → Context} (h : Run idle K cond c ctx) (hmode : c.mode = .machine)
      (reg : Reg → Word) (hsp : reg .sp = c.reg .sp) (mstatus : Word) :
      Run idle K cond (c.mret reg mstatus) ctx

theorem Run.sound (h : Run idle K cond c ctx) : c.Sound K := by
  induction h with
  | start c h => exact h
  | compute h hmode pc reg m hmem ih =>
    refine ⟨⟨ih.seated.placed.congr rfl rfl, ih.seated.current, ih.seated.running⟩, ih.user, fun hm => ?_, ih.slot⟩
    exact absurd (hmode.symm.trans hm) (by decide)
  | trap h hmode mstatus ih => exact ih.trap hmode mstatus
  | work h hmode hwork hcond ih =>
    exact ⟨hwork.seated ih.seated, fun hu => absurd (hmode.symm.trans hu) (by decide), ih.machine,
      fun p hp => hwork.slot ih.slot hp⟩
  | mret h hmode reg hsp mstatus ih => exact ih.mret hmode hsp mstatus

theorem trap_pcbs (h : c.Sound K) (hmode : c.mode = .user) (mstatus : Word) :
    (c.trap mstatus).kernel.pcbs = c.kernel.pcbs := by
  obtain ⟨S, hentered, -, -⟩ := trap_entered h hmode mstatus
  rw [hentered.kernel]
  rfl

theorem mret_pcbs (c : Core) (reg : Reg → Word) (mstatus : Word) :
    (c.mret reg mstatus).kernel.pcbs = c.kernel.pcbs := by
  obtain ⟨-, -, hkernel, -⟩ := mret_left c reg mstatus
  rw [hkernel]

section Compute

variable {pc : Word} {reg : Reg → Word} {m : Mem}

theorem computes_running : (c.computes pc reg m).kernel.Running p ↔ c.kernel.Running p := Iff.rfl

/-- The processes that are not running have nothing to do with it. -/
theorem computes_context (hp : p ∈ c.kernel.pcbs)
    (hmem : ∀ p ∈ c.kernel.pcbs, ∀ i < pcbSize, byte m p i = byte c.kernel.mem p i)
    (hrun : ¬ c.kernel.Running p) :
    ((c.computes pc reg m).context p).SameFrame (c.context p) ∧
      ((c.computes pc reg m).context p).SameControl (c.context p) := by
  have hword : ∀ {i : Nat}, i + 4 ≤ pcbSize →
      word (c.computes pc reg m).kernel.mem p i = word c.kernel.mem p i := fun hi =>
    word_congr fun k hk => hmem p hp _ (by omega)
  rw [context_parked hrun, context_parked (mt computes_running.1 hrun)]
  refine ⟨fun r hr => ?_, Kernel.sameControl computes_running rfl (hword (by decide)) (hword (by decide))⟩
  rw [Kernel.context_reg hr, Kernel.context_reg hr]
  exact hword ((Kernel.tf_le hr).trans (by decide))

/-- The one that is running is where it has got to. -/
theorem computes_self (hmode : c.mode = .user) (hrun : c.kernel.Running p) :
    (c.computes pc reg m).context p = ⟨pc, reg⟩ := context_user hmode (computes_running.2 hrun)

theorem ledger_self (hrun : c.kernel.Running p) :
    (if c.kernel.kidle = 0 then Function.update ctx c.kernel.currentPcb ⟨pc, reg⟩ else ctx) p = ⟨pc, reg⟩ := by
  rw [if_pos hrun.1, hrun.2, Function.update_self]

theorem ledger_other (hrun : ¬ c.kernel.Running p) :
    (if c.kernel.kidle = 0 then Function.update ctx c.kernel.currentPcb ⟨pc, reg⟩ else ctx) p = ctx p := by
  split
  · rename_i hk
    exact Function.update_of_ne (fun heq => hrun ⟨hk, heq⟩) _ _
  · rfl

end Compute

/-- **The registers of the frame are what the ledger says,** for every process. -/
theorem Run.frame (h : Run idle K cond c ctx) (hp : p ∈ c.kernel.pcbs) : (c.context p).SameFrame (ctx p) := by
  induction h generalizing p with
  | start c h => exact fun r _ => rfl
  | @compute c ctx h hmode pc reg m hmem ih =>
    have hp' : p ∈ c.kernel.pcbs := hp
    by_cases hrun : c.kernel.Running p
    · rw [computes_self hmode hrun, ledger_self hrun]
      exact fun r _ => rfl
    · rw [ledger_other hrun]
      exact (computes_context hp' hmem hrun).1.trans (ih hp')
  | trap h hmode mstatus ih =>
    rw [trap_pcbs h.sound hmode] at hp
    exact (trap_context h.sound hmode mstatus hp).1.trans (ih hp)
  | @work c ctx e t h hmode hwork hcond ih =>
    rw [context_machine (c := { c with kernel := t }) hmode]
    refine (hwork.frame h.sound.seated hp).trans (hwork.effect_frame h.sound.seated (fun q hq => ?_) hp)
    rw [← context_machine hmode]
    exact ih hq
  | mret h hmode reg hsp mstatus ih =>
    rw [mret_pcbs] at hp
    exact (mret_context hmode reg mstatus).1.trans (ih hp)

/-- **And so are the `pc` and the stack pointer,** in a run whose switches are safe. -/
theorem Run.control (hsafe : ∀ s, cond s → s.SwitchesSafely) (h : Run idle K cond c ctx)
    (hp : p ∈ c.kernel.pcbs) : (c.context p).SameControl (ctx p) := by
  induction h generalizing p with
  | start c h => exact ⟨rfl, rfl⟩
  | @compute c ctx h hmode pc reg m hmem ih =>
    have hp' : p ∈ c.kernel.pcbs := hp
    by_cases hrun : c.kernel.Running p
    · rw [computes_self hmode hrun, ledger_self hrun]
      exact ⟨rfl, rfl⟩
    · rw [ledger_other hrun]
      exact (computes_context hp' hmem hrun).2.trans (ih hp')
  | trap h hmode mstatus ih =>
    rw [trap_pcbs h.sound hmode] at hp
    exact (trap_context h.sound hmode mstatus hp).2.trans (ih hp)
  | @work c ctx e t h hmode hwork hcond ih =>
    rw [context_machine (c := { c with kernel := t }) hmode]
    have hstep := hwork.control h.sound.seated hp fun he => hsafe _ (hcond he)
    refine hstep.trans (hwork.effect_control h.sound.seated (fun q hq => ?_) hp)
    rw [← context_machine hmode]
    exact ih hq
  | mret h hmode reg hsp mstatus ih =>
    rw [mret_pcbs] at hp
    exact (mret_context hmode reg mstatus).2.trans (ih hp)

end Core

end RiscyOS
