import RiscyOS.Process.TableRing

/-!
# Who runs next

Between traps the processor belongs to `current_pcb`, unless it idles, and `mhandler` returns there
without a look at the status.  So everything that marks a process, as blocked or as a zombie, has to be
followed by a decision of the scheduler before the trap is over.

* `Kernel.Started` — the table when `boot` hands over: a run starts here, and a step is a trap.
* `Kernel.OnlyLive` — the process about to run is neither blocked nor has it exited, and none that has
  exited is ready.
* `only_live_run` — in every run without an exit, as long as the ring is kept.  `ecall_write` blocks and
  then schedules, but `ecall_exit` returns to its caller like any other system call.
-/

set_option autoImplicit false

namespace RiscyOS

open Memory

namespace Kernel

variable {s t : Kernel} {p : Ptr} {idle : Word} {e : Event}

/-- **The table after `boot`**: the first process has got its PCB, and the scheduler has decided. -/
def Started (idle : Word) (t : Kernel) : Prop :=
  ∃ (s : Kernel) (slab : Ptr), s.Booted ∧ s.Grants slab pcbSize ∧ slab ≠ null ∧
    ({ s with released := [] }.kexecve slab).schedule idle = some t

/-- **Only live processes run**: where `mhandler` returns to is neither a zombie nor blocked, and no
zombie has been made ready. -/
structure OnlyLive (s : Kernel) : Prop where
  running : s.kidle = 0 → s.currentPcb ∉ s.exited ∧ s.currentPcb ∉ s.blocked
  exited : ∀ p ∈ s.exited, s.status p ≠ stateReady

/-- The traps in which nobody exits and the ring is kept. -/
def TurnSafe (s : Kernel) (e : Event) : Prop :=
  s.RingSafe e ∧ match e with
    | .kexecve _ => False
    | .exit _ => False
    | _ => True

/-- What the books say of the PCBs: nobody has exited, and who is blocked has the mark. -/
structure Marked (s : Kernel) : Prop where
  exited : s.exited = []
  blocked : ∀ p ∈ s.blocked, p ∈ s.pcbs ∧ s.status p = stateBlocked

/-- Marks are taken away, and the others stay. -/
theorem Marked.kept (h : s.Marked) (hexited : t.exited ⊆ s.exited) (hblocked : t.blocked ⊆ s.blocked)
    (hpcbs : s.pcbs ⊆ t.pcbs) (hstatus : ∀ p ∈ s.pcbs, p ∈ t.blocked → t.status p = s.status p) :
    t.Marked := by
  refine ⟨List.eq_nil_of_subset_nil (h.exited ▸ hexited), ?_⟩
  intro p hp
  obtain ⟨hmem, hmark⟩ := h.blocked p (hblocked hp)
  exact ⟨hpcbs hmem, (hstatus p hmem hp).trans hmark⟩

/-! ## Functions -/

theorem ecallFork_marks (s : Kernel) (s0 : Ptr) (g : ForkGrants) :
    (s.ecallFork s0 g).exited ⊆ s.exited ∧ (s.ecallFork s0 g).blocked ⊆ s.blocked ∧
      (s.ecallFork s0 g).kidle = s.kidle ∧ (s.ecallFork s0 g).currentPcb = s.currentPcb := by
  have hfail := fun u : Kernel => forkUallocFail_books u s0
  have hfilter : ∀ l : List Ptr, l.filter (· ≠ g.pcb) ⊆ l := fun l => List.filter_sublist.subset
  rw [ecallFork]
  split
  · rw [(hfail _).exited, (hfail _).blocked, (hfail _).kidle, (hfail _).currentPcb]
    exact ⟨List.Subset.refl _, List.Subset.refl _, rfl, rfl⟩
  · split
    · rw [(hfail _).exited, (hfail _).blocked, (hfail _).kidle, (hfail _).currentPcb]
      exact ⟨hfilter _, hfilter _, rfl, rfl⟩
    · split
      · rw [(hfail _).exited, (hfail _).blocked, (hfail _).kidle, (hfail _).currentPcb]
        exact ⟨hfilter _, hfilter _, rfl, rfl⟩
      · exact ⟨hfilter _, hfilter _, rfl, rfl⟩

/-- A fork leaves the statuses of the others alone. -/
theorem RingInv.fork_status {g : ForkGrants} (h : s.RingInv) (hcur : s.currentPcb ≠ null)
    (hpcb : s.Grants g.pcb pcbSize) (hregion : (s.allocPcb g.pcb).Grants g.region memoryRegionStructSize)
    (hsafe : s.RingSafe (.fork g)) : s.pcbs ⊆ (s.ecall.ecallFork s.currentPcb g).pcbs ∧
      ∀ p ∈ s.pcbs, (s.ecall.ecallFork s.currentPcb g).status p = s.status p := by
  have hmem := h.ring.current_mem hcur
  obtain ⟨htext, hcopy⟩ := hsafe
  by_cases hg : g.Enough
  · have hfork : s.ecall.Forked (s.ecall.ecallFork s.currentPcb g) s.currentPcb g :=
      ecallFork_forked h.ecall.placed hmem hpcb hregion hg (hcopy hg).2 htext
    refine ⟨?_, hfork.status⟩
    rw [ecallFork_eq hg]
    simp only [forkStart, allocPcb, if_neg hg.2.1]
    exact List.subset_cons_self _ _
  · obtain ⟨hbooks, -⟩ := ecallFork_fail_books s.currentPcb h.ecall.placed hpcb hg
    have halter : Alters (s.forkFailSpans s.currentPcb g) s.mem (s.ecall.ecallFork s.currentPcb g).mem :=
      ecallFork_fail_alters h.ecall.placed hmem hpcb hg htext
    refine ⟨(List.Perm.of_eq hbooks.pcbs.symm).subset, ?_⟩
    intro p hp
    exact halter.byte fun b hb =>
      forkFail_spares h.placed hmem hpcb htext (by decide) (by decide) b hb p hp

/-- A status is stored in a PCB, and no other changes. -/
theorem status_of_status {v : Byte} {q : Ptr} (hpl : s.Placed) (hq : q ∈ s.pcbs) (hp : p ∈ s.pcbs)
    (hne : p ≠ q) (ht : t.mem = setByte s.mem q pcbStatus v) : t.status p = s.status p := by
  rw [status, ht]
  exact byte_setByte_apart (hpl.apart hq hp hne.symm) (by decide) (by decide)

theorem Decided.status {a0 : Ptr} (hd : s.Decided t a0) (hring : s.RingInv) (hp : p ∈ s.pcbs) :
    t.status p = s.status p := by
  refine hd.alters.byte (List.forall_mem_singleton.2 ?_)
  by_cases hcur : s.currentPcb = null
  · intro x hx hx'
    rw [hcur] at hx
    exact hring.placed.pcbs_low p hp x (has_of_part hx' (by decide)) (has_of_part hx (by decide))
  · exact hring.placed.spares (hring.ring.current_mem hcur) (by decide) (by decide) (by decide) p hp

/-- **A decision is for a process that is not blocked.** -/
theorem Marked.schedule (h : s.Marked) (hring : s.RingInv) (hs : s.schedule idle = some t) :
    t.Marked ∧ (t.kidle = 0 → t.currentPcb ∉ t.blocked) := by
  obtain ⟨a0, hnext, hd⟩ := schedule_decided hs
  refine ⟨h.kept ?_ ?_ ?_ fun p hp _ => hd.status hring hp, ?_⟩
  · exact (List.Perm.of_eq hd.exited).subset
  · exact (List.Perm.of_eq hd.blocked).subset
  · exact (List.Perm.of_eq hd.pcbs.symm).subset
  intro hidle hmem
  have ha := hd.kidle hidle
  rw [hd.currentPcb, if_neg ha, hd.blocked] at hmem
  obtain ⟨-, hmark⟩ := h.blocked a0 hmem
  rcases hring.ring with ⟨hnull, -⟩ | ⟨l, hl, hperm⟩
  · rw [scheduleNext, if_pos (show s.machine.currentPcb = null from hnull), Option.some.injEq] at hnext
    exact ha hnext.symm
  · have hon : s.machine.OnRing l := ⟨hl, fun hnull => hring.placed.null_notMem (hperm.subset hnull)⟩
    rcases (scheduleNext_selected hon hnext ha).2 with hready | hrunning
    · exact absurd (hmark.symm.trans hready) (by decide)
    · exact absurd (hmark.symm.trans hrunning) (by decide)

/-! ## Steps -/

/-- What holds between traps. -/
structure TurnInv (s : Kernel) : Prop where
  ring : s.RingInv
  marked : s.Marked
  running : s.kidle = 0 → s.currentPcb ∉ s.blocked

/-- The processor stays with the process that has it. -/
theorem TurnInv.kept (h : s.TurnInv) (hring : t.RingInv) (hmarked : t.Marked) (hidle : t.kidle = s.kidle)
    (hcur : t.currentPcb = s.currentPcb) (hblocked : t.blocked ⊆ s.blocked) : t.TurnInv := by
  refine ⟨hring, hmarked, ?_⟩
  intro hk hmem
  rw [hidle] at hk
  rw [hcur] at hmem
  exact h.running hk (hblocked hmem)

/-- A process is marked ready, which takes its mark away. -/
theorem TurnInv.woken {q : Ptr} {l r : List Ptr} (h : s.TurnInv) (hring : t.RingInv)
    (hbooks : ({ s with loads := l, requests := r, blocked := s.blocked.filter (· ≠ q) } : Kernel).SameBooks t)
    (hstatus : ∀ p ∈ s.pcbs, p ≠ q → t.status p = s.status p) : t.TurnInv := by
  have hblocked : t.blocked ⊆ s.blocked := by
    rw [hbooks.blocked]
    exact List.filter_sublist.subset
  refine h.kept hring (h.marked.kept ?_ hblocked ?_ ?_) hbooks.kidle hbooks.currentPcb hblocked
  · exact (List.Perm.of_eq hbooks.exited).subset
  · exact (List.Perm.of_eq hbooks.pcbs.symm).subset
  · intro p hp hin
    rw [hbooks.blocked, List.mem_filter, decide_eq_true_iff] at hin
    exact hstatus p hp hin.2

theorem Marked.begin (h : s.Marked) : ({ s with released := [] } : Kernel).Marked := ⟨h.exited, h.blocked⟩

/-- The process that makes a request is marked. -/
theorem Marked.ttyMakeRequest {made : Option MadeRequest} (h : s.Marked) (hring : s.RingInv)
    (hcur : s.currentPcb ≠ null) (hsafe : ∀ r ∈ made, s.Outside (part r.link 0 4)) :
    (s.ttyMakeRequest made).Marked := by
  have hmem := hring.ring.current_mem hcur
  cases made with
  | none => exact h
  | some made =>
    have hlink : ∀ p ∈ s.pcbs, (s.ttyMakeRequest (some made)).status p = s.blockCurrentProcess.status p :=
      fun p hp => (alters_setWord _ _ _ _).byte
        (List.forall_mem_singleton.2 ((hsafe made rfl).spares (by decide) p hp))
    refine ⟨h.exited, ?_⟩
    intro p hp
    by_cases hne : p = s.currentPcb
    · subst hne
      exact ⟨hmem, (hlink _ hmem).trans (byte_setByte _ _ _ _)⟩
    · obtain ⟨hp', hmark⟩ := h.blocked p ((List.mem_cons.1 hp).resolve_left hne)
      have hblock : s.blockCurrentProcess.status p = s.status p :=
        status_of_status hring.placed hmem hp' hne rfl
      exact ⟨hp', (hlink p hp').trans (hblock.trans hmark)⟩

/-- The statuses of the other PCBs when a load comes to its end. -/
theorem loadedStart_status {pcb : Ptr} {segs : List Segment} (hsegs : s.GrantsSegments segs)
    (hp : p ∈ s.pcbs) : (s.loadedStart pcb segs).status p = s.status p :=
  (loadedStart_alters s pcb segs).byte fun b hb => (hsegs.outside b hb).spares (by decide) p hp

/-- **One trap.** -/
theorem Step.turn (hstep : s.Step idle e t) (hsafe : s.TurnSafe e) (h : s.TurnInv) : t.TurnInv := by
  have hring := hstep.ring hsafe.1 h.ring
  cases hstep with
  | kexecve slab hslab => exact hsafe.2.elim
  | fork g hrun hcur hpcb hregion =>
    obtain ⟨hexited, hblocked, hidle, hcurrent⟩ := ecallFork_marks s.ecall s.currentPcb g
    obtain ⟨hpcbs, hstatus⟩ := h.ring.fork_status hcur hpcb hregion hsafe.1
    exact h.kept hring (h.marked.kept hexited hblocked hpcbs fun p hp _ => hstatus p hp) hidle hcurrent
      hblocked
  | exit junk hrun hcur hexit => exact hsafe.2.elim
  | execve hrun hcur =>
    have hmarked : Marked (s.ecall.elfLoadSubmit s.currentPcb) := ⟨h.marked.exited, h.marked.blocked⟩
    exact h.kept hring hmarked rfl rfl (List.Subset.refl _)
  | loaded pcb hdr segs d hload hsegs =>
    have hfinished := h.ring.loaded hload hsegs hsafe.1
    refine h.woken hring (loaded_books s pcb segs (imageOf hdr segs) d) ?_
    intro p hp hne
    refine (hfinished.status p ?_ hne).trans (loadedStart_status hsegs hp)
    rwa [(loadedStart_books s pcb segs).pcbs]
  | loadFailed pcb hdr segs hload hsegs =>
    have hpl : (s.loadedStart pcb segs).Placed := loadedStart_placed h.ring.placed hsegs
    have hpcbs : (s.loadedStart pcb segs).pcbs = s.pcbs := (loadedStart_books s pcb segs).pcbs
    refine h.woken hring (loadFailed_books s pcb segs (imageOf hdr segs)) ?_
    intro p hp hne
    refine (status_of_status hpl (q := pcb) ?_ ?_ hne rfl).trans (loadedStart_status hsegs hp)
    · rw [hpcbs]
      exact h.ring.loads hload
    · rwa [hpcbs]
  | write made hrun hcur hwrite =>
    obtain ⟨hmade, -⟩ := h.ring.ecall.ttyMakeRequest hcur hsafe.1
    have hmarked : s.ecall.Marked := ⟨h.marked.exited, h.marked.blocked⟩
    obtain ⟨hmarked, hrunning⟩ :=
      (hmarked.ttyMakeRequest h.ring.ecall hcur hsafe.1).schedule hmade hwrite
    exact ⟨hring, hmarked, hrunning⟩
  | completed pcb =>
    refine h.woken hring (l := s.loads) (r := s.requests.erase pcb) (q := pcb) ?_ ?_
    · exact .of_mem _ _ _ _
    · exact fun p hp hne => status_of_status h.ring.placed (h.ring.requests hsafe.1) hp hne rfl
  | schedule hdecide =>
    obtain ⟨hmarked, hrunning⟩ := h.marked.begin.schedule h.ring.begin hdecide
    exact ⟨hring, hmarked, hrunning⟩
  | others m csr hothers =>
    refine h.kept hring (h.marked.kept (List.Subset.refl _) (List.Subset.refl _) (List.Subset.refl _) ?_)
      rfl rfl (List.Subset.refl _)
    exact fun p hp _ => hothers.process p hp _ (by decide) (by decide)

theorem Started.turnInv (h : s.Started idle) : s.TurnInv := by
  obtain ⟨s₀, slab, hboot, hslab, hne, hdecide⟩ := h
  have hstep : s₀.Step idle (.kexecve slab) ({ s₀ with released := [] }.kexecve slab) :=
    .kexecve slab hslab
  have hring := hstep.ring ⟨hboot.pcbs, hne⟩ hboot.ringInv
  have hmarked : ({ s₀ with released := [] }.kexecve slab).Marked := by
    constructor
    · simp [Kernel.kexecve, elfLoadSubmit, allocPcb, hboot.exited]
    · intro p hp
      have hp : p = slab := by simpa [Kernel.kexecve, elfLoadSubmit, allocPcb, hboot.blocked] using hp
      subst hp
      refine ⟨?_, kexecve_status _ _⟩
      simp [Kernel.kexecve, elfLoadSubmit, allocPcb, hne]
  obtain ⟨hmarked, hrunning⟩ := hmarked.schedule hring hdecide
  exact ⟨hring.schedule hdecide, hmarked, hrunning⟩

/-- **Along a whole run.** -/
theorem Reach.turnInv (h : Reach idle (Started idle) TurnSafe s) : s.TurnInv := by
  induction h with
  | start h => exact h.turnInv
  | step _ hsafe hstep ih => exact hstep.turn hsafe ih

end Kernel

open Kernel

/-- **Only live processes run.**  Between any two traps of a run in which nobody exits and the ring is
kept, the processor idles or belongs to a process that is not blocked and has not exited. -/
theorem only_live_run (idle : Word) (s : Kernel) (h : Reach idle (Started idle) TurnSafe s) :
    s.OnlyLive := by
  have hinv := h.turnInv
  refine ⟨?_, ?_⟩
  · intro hidle
    rw [hinv.marked.exited]
    exact ⟨List.not_mem_nil, hinv.running hidle⟩
  · rw [hinv.marked.exited]
    exact fun p hp => absurd hp List.not_mem_nil

/-! ### A program that writes, and one that exits -/

theorem forkStarted_started : forkStarted.Started 0x500 :=
  ⟨forkBoot, 0x1000, forkBoot_booted, by decide +kernel, by decide, (Option.some_get _).symm⟩

/-- The request is linked up at `0x5000`. -/
def writeRequest : MadeRequest := ⟨0x5000, 0x5010⟩

def writeBlocked : Kernel := (forkRunning.ecall.ecallWrite 0x500 (some writeRequest)).get (by decide +kernel)

/-- While its request is on its way the only process does not run. -/
theorem only_live_run_write : ∃ s, Reach 0x500 (Started 0x500) TurnSafe s ∧ s.blocked = [0x1000] ∧
    s.kidle = 1 ∧ s.OnlyLive := by
  have hrun : Reach 0x500 (Started 0x500) TurnSafe forkRunning :=
    forkRunning_reach (.start forkStarted_started) ⟨⟨by decide +kernel, by decide +kernel⟩, trivial⟩
      ⟨trivial, trivial⟩
  have hlink : forkRunning.TurnSafe (.write (some writeRequest)) := by
    refine ⟨?_, trivial⟩
    rintro r ⟨rfl⟩
    decide +kernel
  have hblocked : Reach 0x500 (Started 0x500) TurnSafe writeBlocked :=
    hrun.step hlink (.write _ (by decide +kernel) (by decide +kernel) (Option.some_get _).symm)
  exact ⟨_, hblocked, by decide +kernel, by decide +kernel, only_live_run _ _ hblocked⟩

def exitReturned : Kernel := (forkRunning.ecall.ecallExit forkRunning.currentPcb 0).get (by decide +kernel)

/-- `ecall_exit` returns, and `mhandler` goes on with the zombie. -/
theorem exit_returns : ¬ ∀ s, Reach 0x500 (Started 0x500) (fun _ _ => True) s → s.OnlyLive := by
  intro h
  have hrun : Reach 0x500 (Started 0x500) (fun _ _ => True) forkRunning :=
    forkRunning_reach (.start forkStarted_started) trivial trivial
  have hexit := h exitReturned (hrun.step trivial (.exit 0 (by decide +kernel) (by decide +kernel)
    (Option.some_get _).symm))
  exact absurd (hexit.running (by decide +kernel)).1 (by decide +kernel)

end RiscyOS
