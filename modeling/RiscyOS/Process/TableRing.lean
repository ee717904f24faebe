import RiscyOS.Process.TableSteps

/-!
# The ring of processes

`schedule_next` and `get_pcb_from_id` go round the PCBs through `PCB_NEXT` until they are back where
they started, so they rely on every PCB being on one ring.  Nothing in the code says so; it has to be
kept by each function that creates a process, and by every store that might hit a link.

* `Kernel.RingFormed` — from `current_pcb` the links lead through every PCB handed out, once, and
  back.
* `Kernel.RingSafe` — the events that keep it.  `fork` copies as many bytes as happens to be in `a2`,
  where the link of the parent has to be among them.  `exit` writes a reference count at the end of a
  pointer it has misread, and reaping frees a PCB that is still on the ring.
* `process_ring` — with these events only, it is a ring in every state.

Every step but the making of a process leaves the links alone (`Kernel.Step.kept`), and the making of one
puts it in behind its parent.
-/

set_option autoImplicit false

namespace RiscyOS

open Memory

namespace Kernel

variable {s t : Kernel} {p q pcb : Ptr} {idle : Word} {e : Event}

/-! ## The ring -/

/-- **The process ring is well formed**: following `PCB_NEXT` from `current_pcb` visits each PCB handed
out exactly once, and nothing else, and comes back.  Before the first process there is nothing. -/
def RingFormed (s : Kernel) : Prop :=
  s.currentPcb = null ∧ s.pcbs = [] ∨ ∃ l, Circular s.next s.currentPcb l ∧ l.Perm s.pcbs

/-- The events that keep the ring. -/
def RingSafe (s : Kernel) : Event → Prop
  | .kexecve slab => s.pcbs = [] ∧ slab ≠ null
  | .fork g => s.RegionOutside (s.ptext s.currentPcb) ∧
      (g.Enough → 136 ≤ g.a2.toNat ∧ g.a2.toNat ≤ pcbSize)
  | .exit junk => s.RegionOutside (s.ptext s.currentPcb) ∧
      s.RegionOutside ((s.ecall.exitText s.currentPcb).pdata (s.ecall.exitText s.currentPcb).exitPcb) ∧
      s.ecall.ExitQuiet s.currentPcb junk
  | .loaded pcb _ _ _ => s.RegionOutside (s.ptext pcb) ∧ s.RegionOutside (s.pdata pcb)
  | .write made => ∀ r ∈ made, s.Outside (part r.link 0 4)
  | .completed pcb => pcb ∈ s.requests
  | _ => True

/-- What holds along a run: the records are apart, loads and requests are for PCBs handed out, and the
ring. -/
structure RingInv (s : Kernel) : Prop where
  placed : s.Placed
  loads : s.loads ⊆ s.pcbs
  requests : s.requests ⊆ s.pcbs
  ring : s.RingFormed

theorem RingFormed.current_mem (h : s.RingFormed) (hcur : s.currentPcb ≠ null) :
    s.currentPcb ∈ s.pcbs := by
  rcases h with ⟨hnull, -⟩ | ⟨l, hring, hperm⟩
  · exact absurd hnull hcur
  · exact hperm.mem_iff.1 hring.mem

/-- The links, and where the ring starts. -/
theorem RingFormed.congr (h : s.RingFormed) (hcur : t.currentPcb = s.currentPcb)
    (hpcbs : t.pcbs = s.pcbs) (hnext : ∀ p ∈ s.pcbs, t.next p = s.next p) : t.RingFormed := by
  rw [RingFormed, hcur, hpcbs]
  refine h.imp id ?_
  rintro ⟨l, hring, hperm⟩
  exact ⟨l, hring.congr fun x hx => hnext x (hperm.subset hx), hperm⟩

/-- What is selected is on the ring, and ready or running. -/
theorem scheduleNext_selected {m : Machine} {l : List Ptr} {a0 : Ptr} (hon : m.OnRing l)
    (h : scheduleNext m = some a0) (ha : a0 ≠ null) :
    a0 ∈ l ∧ ((m.pcb a0).pstatus = stateReady ∨ (m.pcb a0).pstatus = stateRunning) := by
  rw [scheduleNext_eq hon, Option.some.injEq] at h
  rcases hfind : l.find? m.ready with _ | x
  · rw [hfind, Option.getD_none] at h
    split at h
    · rename_i hrunning
      rw [← h]
      exact ⟨hon.ring.mem, Or.inr hrunning⟩
    · exact absurd h.symm ha
  · rw [hfind, Option.getD_some] at h
    have hready := List.find?_some hfind
    rw [Machine.ready, decide_eq_true_eq] at hready
    rw [← h]
    exact ⟨List.mem_of_find?_eq_some hfind, Or.inl hready⟩

theorem Decided.same {a0 : Ptr} (hd : s.Decided t a0) (hpl : s.Placed) (h : s.RingFormed) : s.Same t := by
  refine Same.of_alters hd.alters (List.forall_mem_singleton.2 ?_)
  by_cases hcur : s.currentPcb = null
  · -- the kernel image
    refine Outside.sparesTable fun p hp x hx hx' => hpl.pcbs_low p hp x hx ?_
    rw [hcur] at hx'
    exact has_of_part hx' (by decide)
  · exact hpl.sparesTable (h.current_mem hcur) (Or.inl (by decide))

/-- **The scheduler goes on from a process on the ring.** -/
theorem RingFormed.schedule (hpl : s.Placed) (h : s.RingFormed) (hs : s.schedule idle = some t) :
    t.RingFormed := by
  obtain ⟨a0, hnext, hdecided⟩ := schedule_decided hs
  have hsame := (hdecided.same hpl h).next
  by_cases hcur : s.currentPcb = null
  · rw [scheduleNext, if_pos (show s.machine.currentPcb = null from hcur), Option.some.injEq] at hnext
    subst hnext
    exact h.congr (by rw [hdecided.currentPcb, if_pos rfl]) hdecided.pcbs hsame
  rcases h with ⟨hnull, -⟩ | ⟨l, hring, hperm⟩
  · exact absurd hnull hcur
  by_cases ha : a0 = null
  · subst ha
    exact RingFormed.congr (Or.inr ⟨l, hring, hperm⟩) (by rw [hdecided.currentPcb, if_pos rfl])
      hdecided.pcbs hsame
  · have hnotnull : null ∉ l := fun hmem => hpl.null_notMem (hperm.subset hmem)
    have hon : s.machine.OnRing l := ⟨hring, hnotnull⟩
    obtain ⟨l', hring', hperm'⟩ := hring.from_mem (scheduleNext_selected hon hnext ha).1
    refine Or.inr ⟨l', ?_, ?_⟩
    · rw [hdecided.currentPcb, if_neg ha]
      exact hring'.congr fun x hx => hsame x (hperm.subset (hperm'.subset hx))
    · rw [hdecided.pcbs]
      exact hperm'.trans hperm

/-! ## Steps -/

/-- No PCB is handed out or given back, and of those handed out the links and the ids are the same. -/
structure PcbsKept (s t : Kernel) : Prop where
  pcbs : t.pcbs = s.pcbs
  next : ∀ p ∈ s.pcbs, t.next p = s.next p
  pid : ∀ p ∈ s.pcbs, t.pid p = s.pid p

theorem Same.kept (h : s.Same t) (hpcbs : t.pcbs = s.pcbs) : s.PcbsKept t := ⟨hpcbs, h.next, h.pid⟩

theorem PcbsKept.trans {u : Kernel} (h : s.PcbsKept t) (h' : t.PcbsKept u) : s.PcbsKept u where
  pcbs := h'.pcbs.trans h.pcbs
  next p hp := (h'.next p (h.pcbs ▸ hp)).trans (h.next p hp)
  pid p hp := (h'.pid p (h.pcbs ▸ hp)).trans (h.pid p hp)

theorem RingInv.kept (h : s.RingInv) (hpl : t.Placed) (hkept : s.PcbsKept t)
    (hcur : t.currentPcb = s.currentPcb) (hloads : t.loads ⊆ s.loads)
    (hrequests : t.requests ⊆ s.requests) : t.RingInv where
  placed := hpl
  loads := hkept.pcbs ▸ List.Subset.trans hloads h.loads
  requests := hkept.pcbs ▸ List.Subset.trans hrequests h.requests
  ring := h.ring.congr hcur hkept.pcbs hkept.next

theorem RingInv.schedule (h : s.RingInv) (hs : s.schedule idle = some t) : t.RingInv := by
  obtain ⟨a0, -, hdecided⟩ := schedule_decided hs
  refine ⟨h.placed.sublist ?_ ?_, ?_, ?_, h.ring.schedule h.placed hs⟩
  · rw [hdecided.pcbs]
  · rw [hdecided.regions]
  · rw [hdecided.loads, hdecided.pcbs]
    exact h.loads
  · rw [hdecided.requests, hdecided.pcbs]
    exact h.requests

/-- A child is put in behind its parent. -/
theorem RingInv.fork {g : ForkGrants} (h : s.RingInv) (hcur : s.currentPcb ≠ null)
    (hpcb : s.Grants g.pcb pcbSize) (hregion : (s.allocPcb g.pcb).Grants g.region memoryRegionStructSize)
    (hg : g.Enough) (hsafe : s.RingSafe (.fork g))
    (hplaced : (s.ecall.ecallFork s.currentPcb g).Placed) :
    (s.ecall.ecallFork s.currentPcb g).RingInv := by
  obtain ⟨htext, hcopy⟩ := hsafe
  obtain ⟨hlo, hhi⟩ := hcopy hg
  have hmem := h.ring.current_mem hcur
  have hpl : s.ecall.Placed := h.placed.congr rfl rfl
  have hfork : s.ecall.Forked (s.ecall.ecallFork s.currentPcb g) s.currentPcb g :=
    ecallFork_forked hpl hmem hpcb hregion hg hhi htext
  have hbooks : s.ecall.ecallFork s.currentPcb g = _ := ecallFork_eq hg
  simp only [forkStart, allocPcb, if_neg hg.2.1] at hbooks
  rcases h.ring with ⟨hnull, -⟩ | ⟨l, hring, hperm⟩
  · exact absurd hnull hcur
  have hnew : g.pcb ∉ l := fun hin => hpl.ne_of_grants hpcb (hperm.subset hin) rfl
  refine ⟨hplaced, ?_, ?_, Or.inr ⟨g.pcb :: l, ?_, ?_⟩⟩
  · rw [hbooks]
    exact List.subset_cons_of_subset _ h.loads
  · rw [hbooks]
    exact List.subset_cons_of_subset _ h.requests
  · rw [hbooks] at hfork ⊢
    exact hring.insert hnew hfork.next_parent (hfork.child_next hlo)
      fun x hx hne => hfork.next x (hperm.subset hx) hne
  · rw [hbooks]
    exact hperm.cons _

theorem RingInv.exit {junk : Word} (h : s.RingInv) (hcur : s.currentPcb ≠ null)
    (hsafe : s.RingSafe (.exit junk)) (hexit : s.ecall.ecallExit s.currentPcb junk = some t) :
    s.ecall.Same t ∧ ({ s.ecall with exited := s.currentPcb :: s.exited } : Kernel).SameBooks t := by
  obtain ⟨htext, hdata, hquiet⟩ := hsafe
  obtain rfl := Option.some.inj ((ecallExit_quiet hquiet).symm.trans hexit)
  have hpl : s.ecall.Placed := h.placed.congr rfl rfl
  exact ⟨exitRelease_same hpl (h.ring.current_mem hcur) htext hdata, exitRelease_books _ _ _⟩

theorem RingInv.loaded {hdr : ElfEhdr} {segs : List Segment} {d : Word} (h : s.RingInv)
    (hload : pcb ∈ s.loads) (hsegs : s.GrantsSegments segs)
    (hsafe : s.RingSafe (.loaded pcb hdr segs d)) :
    (s.loadedStart pcb segs).Finished
      ((s.loadedStart pcb segs).elfFinishDone pcb (imageOf hdr segs) d) pcb (imageOf hdr segs) := by
  obtain ⟨htext, hdata⟩ := hsafe
  have hmem := h.loads hload
  have hpcbs : (s.loadedStart pcb segs).pcbs = s.pcbs := (loadedStart_books s pcb segs).pcbs
  have hsame : s.Same (s.loadedStart pcb segs) := loadedStart_same pcb hsegs
  refine elfFinishDone_finished (loadedStart_placed h.placed hsegs) (by rwa [hpcbs]) ?_ ?_
  · rw [hsame.ptext pcb hmem, RegionOutside, Outside, hpcbs]
    exact htext
  · rw [hsame.pdata pcb hmem, RegionOutside, Outside, hpcbs]
    exact hdata

theorem RingInv.ecall (h : s.RingInv) : s.ecall.RingInv where
  placed := h.placed.congr rfl rfl
  loads := h.loads
  requests := h.requests
  ring := h.ring.congr rfl rfl fun _ _ => rfl

theorem RingInv.begin (h : s.RingInv) : ({ s with released := [] } : Kernel).RingInv where
  placed := h.placed.congr rfl rfl
  loads := h.loads
  requests := h.requests
  ring := h.ring.congr rfl rfl fun _ _ => rfl

theorem RingInv.ttyMakeRequest {made : Option MadeRequest} (h : s.RingInv) (hcur : s.currentPcb ≠ null)
    (hsafe : ∀ r ∈ made, s.Outside (part r.link 0 4)) :
    (s.ttyMakeRequest made).RingInv ∧ s.Same (s.ttyMakeRequest made) := by
  have hmem := h.ring.current_mem hcur
  cases made with
  | none => exact ⟨h, Same.refl s⟩
  | some made =>
    have hsame : s.Same (s.ttyMakeRequest (some made)) := by
      refine Same.of_alters (((alters_setByte s.mem s.currentPcb pcbStatus stateBlocked).mono
        (List.forall_mem_singleton.2 (.of_mem List.mem_cons_self))).setWord
          (.of_mem (List.mem_cons_of_mem _ (List.mem_singleton_self _)))) ?_
      simp only [List.forall_mem_cons]
      exact ⟨h.placed.sparesTable hmem (Or.inr (Or.inr (Or.inr (by decide)))),
        (hsafe made rfl).sparesTable, by simp⟩
    refine ⟨⟨h.placed.congr rfl rfl, h.loads,
      List.cons_subset.2 ⟨hmem, h.requests⟩, h.ring.congr rfl rfl hsame.next⟩, hsame⟩

theorem ttyMakeRequest_pcbs (s : Kernel) (made : Option MadeRequest) :
    (s.ttyMakeRequest made).pcbs = s.pcbs := by cases made <;> rfl

theorem RingInv.write {made : Option MadeRequest} (h : s.RingInv) (hcur : s.currentPcb ≠ null)
    (hsafe : ∀ r ∈ made, s.Outside (part r.link 0 4)) (hwrite : s.ecall.ecallWrite idle made = some t) :
    t.pcbs = s.pcbs ∧ s.ecall.Same t := by
  obtain ⟨hmade, hsame⟩ := h.ecall.ttyMakeRequest hcur hsafe
  obtain ⟨a0, -, hdecided⟩ := schedule_decided hwrite
  have hpcbs := ttyMakeRequest_pcbs s.ecall made
  refine ⟨hdecided.pcbs.trans hpcbs, hsame.trans (hdecided.same hmade.placed hmade.ring) ?_⟩
  rw [hpcbs]
  exact List.Subset.refl _

theorem RingInv.forkFail {g : ForkGrants} (h : s.RingInv) (hcur : s.currentPcb ≠ null)
    (hpcb : s.Grants g.pcb pcbSize) (htext : s.RegionOutside (s.ptext s.currentPcb)) (hg : ¬ g.Enough) :
    s.ecall.Same (s.ecall.ecallFork s.currentPcb g) := by
  have hmem := h.ring.current_mem hcur
  have halter : Alters (s.forkFailSpans s.currentPcb g) s.mem (s.ecall.ecallFork s.currentPcb g).mem :=
    ecallFork_fail_alters h.ecall.placed hmem hpcb hg htext
  have hspares := fun {i n} => @forkFail_spares s _ g h.placed hmem hpcb htext i n
  exact Same.of_alters halter fun b hb => ⟨hspares (by decide) (by decide) b hb,
    hspares (by decide) (by decide) b hb, hspares (by decide) (by decide) b hb,
    hspares (by decide) (by decide) b hb⟩

/-- The events that make a process. -/
def Event.Makes : Event → Prop
  | .kexecve _ => True
  | .fork g => g.Enough
  | _ => False

/-- **What the other events leave alone.** -/
theorem Step.kept (hstep : s.Step idle e t) (hsafe : s.RingSafe e) (h : s.RingInv) (hnew : ¬ e.Makes) :
    s.PcbsKept t := by
  cases hstep with
  | kexecve slab hslab => exact absurd trivial hnew
  | fork g hrun hcur hpcb hregion =>
    obtain ⟨hbooks, -⟩ := ecallFork_fail_books s.currentPcb h.ecall.placed hpcb hnew
    have hsame := h.forkFail hcur hpcb hsafe.1 hnew
    exact ⟨hbooks.pcbs, hsame.next, hsame.pid⟩
  | exit junk hrun hcur hexit =>
    obtain ⟨hsame, hbooks⟩ := h.exit hcur hsafe hexit
    exact ⟨hbooks.pcbs, hsame.next, hsame.pid⟩
  | execve hrun hcur => exact ⟨rfl, fun _ _ => rfl, fun _ _ => rfl⟩
  | loaded pcb hdr segs d hload hsegs =>
    have hfinished := h.loaded hload hsegs hsafe
    have hstart := (loadedStart_same pcb hsegs).kept (loadedStart_books s pcb segs).pcbs
    have hbooks := elfFinishDone_books (s.loadedStart pcb segs) pcb (imageOf hdr segs) d
    exact hstart.trans ⟨hbooks.pcbs, hfinished.next, hfinished.pid⟩
  | loadFailed pcb hdr segs hload hsegs =>
    have hstart := (loadedStart_same pcb hsegs).kept (loadedStart_books s pcb segs).pcbs
    refine hstart.trans ((same_of_status (loadedStart_placed h.placed hsegs) ?_ rfl).kept rfl)
    rw [hstart.pcbs]
    exact h.loads hload
  | write made hrun hcur hwrite =>
    obtain ⟨hpcbs, hsame⟩ := h.write hcur hsafe hwrite
    exact ⟨hpcbs, hsame.next, hsame.pid⟩
  | completed pcb => exact (same_of_status h.placed (h.requests hsafe) rfl).kept rfl
  | schedule hdecide =>
    obtain ⟨a0, -, hdecided⟩ := schedule_decided hdecide
    have hsame := hdecided.same h.begin.placed h.begin.ring
    exact ⟨hdecided.pcbs, hsame.next, hsame.pid⟩
  | others m csr hothers =>
    exact ⟨rfl, hothers.next, fun p hp => hothers.process p hp _ (le_refl _) (by decide)⟩

/-- **One step keeps the ring.** -/
theorem Step.ring (hstep : s.Step idle e t) (hsafe : s.RingSafe e) (h : s.RingInv) : t.RingInv := by
  have hplaced := hstep.placed h.placed
  have hkept := hstep.kept hsafe h
  cases hstep with
  | kexecve slab hslab =>
    obtain ⟨hnil, hne⟩ := hsafe
    have hloads : s.loads = [] := List.eq_nil_of_subset_nil (hnil ▸ h.loads)
    have hrequests : s.requests = [] := List.eq_nil_of_subset_nil (hnil ▸ h.requests)
    have hpcbs : ({ s with released := [] }.kexecve slab).pcbs = [slab] := by
      simp [Kernel.kexecve, elfLoadSubmit, allocPcb, hne, hnil]
    refine ⟨hplaced, ?_, ?_, Or.inr ⟨[slab], Circular.singleton (kexecve_next _ slab), ?_⟩⟩
    · rw [hpcbs]
      simp [Kernel.kexecve, elfLoadSubmit, allocPcb, hloads]
    · rw [hpcbs]
      simp [Kernel.kexecve, elfLoadSubmit, allocPcb, hrequests]
    · rw [hpcbs]
  | fork g hrun hcur hpcb hregion =>
    by_cases hg : g.Enough
    · exact h.fork hcur hpcb hregion hg hsafe hplaced
    · obtain ⟨hbooks, -⟩ := ecallFork_fail_books s.currentPcb h.ecall.placed hpcb hg
      exact h.kept hplaced (hkept hg) hbooks.currentPcb (List.Perm.of_eq hbooks.loads).subset
        (List.Perm.of_eq hbooks.requests).subset
  | exit junk hrun hcur hexit =>
    obtain ⟨-, hbooks⟩ := h.exit hcur hsafe hexit
    exact h.kept hplaced (hkept id) hbooks.currentPcb (List.Perm.of_eq hbooks.loads).subset
      (List.Perm.of_eq hbooks.requests).subset
  | execve hrun hcur =>
    refine ⟨hplaced, List.cons_subset.2 ⟨h.ring.current_mem hcur, h.loads⟩, h.requests, ?_⟩
    exact h.ring.congr rfl rfl fun _ _ => rfl
  | loaded pcb hdr segs d hload hsegs =>
    have hbooks := loaded_books s pcb segs (imageOf hdr segs) d
    refine h.kept hplaced (hkept id) hbooks.currentPcb ?_ (List.Perm.of_eq hbooks.requests).subset
    rw [← loadedStart, hbooks.loads]
    exact List.erase_subset
  | loadFailed pcb hdr segs hload hsegs =>
    have hbooks := loadFailed_books s pcb segs (imageOf hdr segs)
    refine h.kept hplaced (hkept id) hbooks.currentPcb ?_ (List.Perm.of_eq hbooks.requests).subset
    rw [← loadedStart, hbooks.loads]
    exact List.erase_subset
  | write made hrun hcur hwrite =>
    exact (h.ecall.ttyMakeRequest hcur hsafe).1.schedule hwrite
  | completed pcb => exact h.kept hplaced (hkept id) rfl (List.Subset.refl _) List.erase_subset
  | schedule hdecide => exact h.begin.schedule hdecide
  | others m csr hothers =>
    exact h.kept hplaced (hkept id) rfl (List.Subset.refl _) (List.Subset.refl _)

theorem Booted.ringInv (h : s.Booted) : s.RingInv where
  placed := h.placed
  loads := by simp [h.loads]
  requests := by simp [h.requests]
  ring := Or.inl ⟨h.current, h.pcbs⟩

/-- **Along a whole run.** -/
theorem Reach.ringInv (h : Reach idle Booted RingSafe s) : s.RingInv := by
  induction h with
  | start h => exact h.ringInv
  | step _ hsafe hstep ih => exact hstep.ring hsafe ih

end Kernel

open Kernel

/-- **The process ring.**  In every state reached from boot by events that keep it, following `PCB_NEXT`
from `current_pcb` visits each PCB handed out exactly once, and no other, and comes back. -/
theorem process_ring (idle : Word) (s : Kernel) (h : Reach idle Booted RingSafe s) : s.RingFormed :=
  h.ringInv.ring

/-! ### A program that forks

The first process is made and the kernel idles until its load, with one text and one data segment, is
over.  Then it is scheduled, forks and exits.
Its `ra` is `0x100`, and there the kernel image has a 2 where `exit` looks for the parent. -/

/-- The kernel at boot, and junk in the slab that `0x1000` belongs to. -/
def forkBoot : Kernel where
  mem := setWord (setByte (fun _ => 0) 0x100 pcbPpid 2) 0x1000 tfRa 0x100
  currentPcb := null
  kidle := 0
  csr := ⟨0, 0, 0⟩
  mmu := MmuRegs.reset
  pcbNextPid := 1
  pcbs := []
  regions := []
  loads := []
  requests := []
  exited := []
  blocked := []
  released := []

/-- A header with nothing in it but the entry point. -/
def forkHeader : ElfEhdr := ⟨[], 0, 0, 0x20, 0, 2⟩

/-- A segment of 64 bytes. -/
def forkPhdr (vaddr flags : Word) : ElfPhdr where
  pType := 1
  pOffset := 0
  pVaddr := vaddr
  pPaddr := vaddr
  pFilesz := 0x40
  pMemsz := 0x40
  pFlags := flags
  pAlign := 4

/-- A text segment, and a data segment at `0x1000`. -/
def forkSegments : List Segment :=
  [⟨forkPhdr 0 5, 0x3000, 0x40000⟩, ⟨forkPhdr 0x1000 6, 0x3010, 0x40040⟩]

def forkInit : Kernel := { forkBoot with released := [] }.kexecve 0x1000

def forkStarted : Kernel := ({ forkInit with released := [] }.schedule 0x500).get (by decide +kernel)

def forkLoaded : Kernel :=
  ({ forkStarted with released := [], loads := forkStarted.loads.erase 0x1000 }.allocSegments
    forkSegments).elfFinishDone 0x1000 (imageOf forkHeader forkSegments) 2

def forkRunning : Kernel := ({ forkLoaded with released := [] }.schedule 0x500).get (by decide +kernel)

theorem forkBoot_booted : forkBoot.Booted := ⟨rfl, rfl, rfl, rfl, rfl, rfl, rfl, rfl, rfl, rfl⟩

section Demo

variable {init : Kernel → Prop} {cond : Kernel → Event → Prop}

theorem forkStarted_reach (hinit : cond forkBoot (.kexecve 0x1000)) (hrun : cond forkInit .schedule) :
    Reach 0x500 Booted cond forkStarted := by
  have hboot : Reach 0x500 Booted cond forkBoot := .start forkBoot_booted
  have hmade : Reach 0x500 Booted cond forkInit := hboot.step hinit (.kexecve 0x1000 (by decide +kernel))
  exact hmade.step hrun (.schedule (Option.some_get _).symm)

theorem forkRunning_reach (h : Reach 0x500 init cond forkStarted)
    (hload : cond forkStarted (.loaded 0x1000 forkHeader forkSegments 2))
    (hrun : cond forkLoaded .schedule) : Reach 0x500 init cond forkRunning := by
  have hloaded : Reach 0x500 init cond forkLoaded := by
    refine h.step hload (.loaded 0x1000 _ _ _ (by decide +kernel) ⟨by decide, ?_, by decide, ?_, trivial⟩)
    · decide +kernel
    · decide +kernel
  exact hloaded.step hrun (.schedule (Option.some_get _).symm)

end Demo

theorem forkRunning_ring : Reach 0x500 Booted RingSafe forkRunning :=
  forkRunning_reach (forkStarted_reach ⟨rfl, by decide⟩ trivial) ⟨by decide +kernel, by decide +kernel⟩ trivial

/-- What the fork gets, with `a2` as it is left. -/
def forkGrants (a2 : Word) : ForkGrants := ⟨0x40080, 0x1100, 0x3020, a2⟩

def forkDone (a2 : Word) : Kernel := forkRunning.ecall.ecallFork forkRunning.currentPcb (forkGrants a2)

theorem forkDone_step (a2 : Word) : forkRunning.Step 0x500 (.fork (forkGrants a2)) (forkDone a2) := by
  refine .fork _ (by decide +kernel) (by decide +kernel) ?_ ?_
  · exact show forkRunning.Grants 0x1100 pcbSize by decide +kernel
  · exact show (forkRunning.allocPcb 0x1100).Grants 0x3020 memoryRegionStructSize by decide +kernel

def forkExited : Kernel := ((forkDone 164).ecall.ecallExit (forkDone 164).currentPcb 0).get (by decide +kernel)

theorem forkExited_step : (forkDone 164).Step 0x500 (.exit 0) forkExited :=
  .exit 0 (by decide +kernel) (by decide +kernel) (Option.some_get _).symm

/-- Two processes, of which one has exited. -/
theorem process_ring_fork : ∃ s, Reach 0x500 Booted RingSafe s ∧ s.pcbs = [0x1100, 0x1000] ∧
    s.exited = [0x1000] ∧ s.RingFormed := by
  have hcopy : forkRunning.RingSafe (.fork (forkGrants 164)) :=
    ⟨by decide +kernel, fun _ => ⟨by decide, by decide⟩⟩
  have hquiet : (forkDone 164).RingSafe (.exit 0) :=
    ⟨by decide +kernel, by decide +kernel, 0x1000, by decide +kernel, by decide, by decide +kernel⟩
  have hexit : Reach 0x500 Booted RingSafe forkExited :=
    (forkRunning_ring.step hcopy (forkDone_step 164)).step hquiet forkExited_step
  exact ⟨_, hexit, by decide +kernel, by decide +kernel, process_ring _ _ hexit⟩

/-- With 0 in `a2` nothing of the parent is copied, and the child links to nothing. -/
theorem fork_loses_link : ¬ ∀ s, Reach 0x500 Booted (fun _ _ => True) s → s.RingFormed := by
  intro h
  have hrun : Reach 0x500 Booted (fun _ _ => True) forkRunning :=
    forkRunning_reach (forkStarted_reach trivial trivial) trivial trivial
  rcases h _ (hrun.step trivial (forkDone_step 0)) with ⟨hnull, -⟩ | ⟨l, hring, hperm⟩
  · exact absurd hnull (by decide +kernel)
  · have hchild : (0x1100 : Ptr) ∈ l := hperm.mem_iff.2 (by decide +kernel)
    have hnext := hperm.mem_iff.1 (hring.next_mem hchild)
    exact absurd hnext (by decide +kernel)

end RiscyOS
