import RiscyOS.Process.RoundRobin
import RiscyOS.Process.TableSpec

/-!
# Loads, decisions, and what holds in every state

The rest of the functions of `RiscyOS.Process.Table`, in the manner of `RiscyOS.Process.TableSpec`: the
records of the segments (`Kernel.allocSegments`), the end of a load (`Kernel.elfFinishDone`), a decision
of the scheduler (`Kernel.Decided`).

With these `Kernel.Step.placed` says of every step, whatever it is given, that the records handed out
stay apart.  That is all that holds without a condition; what the table needs beyond it is in
`RiscyOS.Process.TableRing`.
-/

set_option autoImplicit false

namespace RiscyOS

open Memory

namespace Kernel

variable {s t u : Kernel} {p q r pcb : Ptr} {idle : Word} {e : Event}

/-! ## The records of the segments -/

section Segments

variable {segs : List Segment}

theorem allocSegments_alters (s : Kernel) (segs : List Segment) :
    Alters (segs.map fun seg => regionSpan seg.region) s.mem (s.allocSegments segs).mem := by
  induction segs generalizing s with
  | nil => exact Alters.refl _ _
  | cons seg segs ih =>
    rw [allocSegments, List.map_cons]
    have hpart : ∀ {i n : Nat}, i + n ≤ memoryRegionStructSize → Covered (regionSpan seg.region ::
        segs.map fun seg => regionSpan seg.region) (part seg.region i n) :=
      fun hi => .part List.mem_cons_self hi
    refine Alters.trans ((((Alters.refl _ s.mem).setWord ?_).setWord ?_).setWord ?_) ((ih _).mono
      fun b hb => .of_mem (List.mem_cons_of_mem _ hb))
    · exact hpart (by decide)
    · exact hpart (by decide)
    · exact hpart (by decide)

theorem allocSegments_books (s : Kernel) (segs : List Segment) : s.SameBooks (s.allocSegments segs) := by
  induction segs generalizing s with
  | nil => exact .of_mem _ _ _ _
  | cons seg segs ih =>
    rw [allocSegments]
    refine SameBooks.trans ?_ (ih _)
    exact .of_mem _ _ _ _

theorem allocSegments_regions (s : Kernel) (segs : List Segment) :
    (s.allocSegments segs).regions = (segs.map Segment.region).reverse ++ s.regions := by
  induction segs generalizing s with
  | nil => rfl
  | cons seg segs ih => rw [allocSegments, ih, List.map_cons, List.reverse_cons, List.append_assoc]; rfl

/-- Only what is handed out matters. -/
theorem GrantsSegments.congr (h : s.GrantsSegments segs) (hp : t.pcbs = s.pcbs)
    (hr : t.regions = s.regions) : t.GrantsSegments segs := by
  induction segs generalizing s t with
  | nil => trivial
  | cons seg segs ih =>
    obtain ⟨hne, hgrant, hrest⟩ := h
    refine ⟨hne, ?_, ih hrest hp (congrArg (seg.region :: ·) hr)⟩
    rwa [Grants, hp, hr]

theorem Placed.allocSegments (h : s.Placed) (hg : s.GrantsSegments segs) :
    (s.allocSegments segs).Placed := by
  induction segs generalizing s with
  | nil => exact h
  | cons seg segs ih =>
    obtain ⟨hne, hgrant, hrest⟩ := hg
    rw [Kernel.allocSegments]
    refine ih (Placed.cons_region h hgrant hne rfl rfl) (hrest.congr rfl rfl)

/-- The records are outside the PCBs. -/
theorem GrantsSegments.outside (h : s.GrantsSegments segs) :
    ∀ b ∈ segs.map fun seg => regionSpan seg.region, s.Outside b := by
  induction segs generalizing s with
  | nil => exact fun b hb => absurd hb (List.not_mem_nil)
  | cons seg segs ih =>
    obtain ⟨hne, hgrant, hrest⟩ := h
    refine List.forall_mem_cons.2 ⟨fun p hp => ?_, fun b hb p hp => ih hrest b hb p hp⟩
    exact ((hgrant.resolve_left hne).2.1 p hp).symm

/-- The state in which a load that has come to its end has its records. -/
def loadedStart (s : Kernel) (pcb : Ptr) (segs : List Segment) : Kernel :=
  { s with released := [], loads := s.loads.erase pcb }.allocSegments segs

theorem loadedStart_books (s : Kernel) (pcb : Ptr) (segs : List Segment) :
    ({ s with loads := s.loads.erase pcb } : Kernel).SameBooks (s.loadedStart pcb segs) := by
  refine SameBooks.trans (t := { s with released := [], loads := s.loads.erase pcb }) ?_
    (allocSegments_books _ _)
  exact .of_mem _ _ _ _

theorem loadedStart_alters (s : Kernel) (pcb : Ptr) (segs : List Segment) :
    Alters (segs.map fun seg => regionSpan seg.region) s.mem (s.loadedStart pcb segs).mem :=
  allocSegments_alters _ _

theorem loadedStart_placed (h : s.Placed) (hsegs : s.GrantsSegments segs) :
    (s.loadedStart pcb segs).Placed := by
  have hload : ({ s with released := [], loads := s.loads.erase pcb } : Kernel).Placed := h.congr rfl rfl
  exact hload.allocSegments (hsegs.congr rfl rfl)

theorem loadedStart_same (pcb : Ptr) (hsegs : s.GrantsSegments segs) :
    s.Same (s.loadedStart pcb segs) :=
  Same.of_alters (loadedStart_alters s pcb segs) fun b hb => (hsegs.outside b hb).sparesTable

end Segments

/-! ## The end of a load -/

section Finish

variable {image : ProcessImage} {d : Word}

/-- The stack pointer of the new image. -/
def finishStack (s : Kernel) (pcb : Ptr) (image : ProcessImage) : Kernel :=
  let textSize := word s.mem image.ptextMemoryRegion memoryRegionSize
  { s with mem := setWord s.mem pcb pcbMscratch (image.pdataStart + textSize) }

/-- The old text region is given back too. -/
def finishText (s : Kernel) (pcb : Ptr) (image : ProcessImage) : Kernel :=
  (s.finishStack pcb image).releaseMemorySegment ((s.finishStack pcb image).ptext pcb)

/-- `elf_finish` up to the stores in the PCB. -/
def finishRelease (s : Kernel) (pcb : Ptr) (image : ProcessImage) : Kernel :=
  (s.finishText pcb image).releaseMemorySegment ((s.finishText pcb image).pdata pcb)

/-- The spans that the end of a load writes to: in the PCB all but the links and the bytes that name
the process, and the counts of the two regions. -/
def finishSpans (s : Kernel) (pcb : Ptr) : List Span :=
  [part (s.ptext pcb) memoryRegionRefCount 4, part (s.pdata pcb) memoryRegionRefCount 4,
    part pcb pcbMepc 12, part pcb pcbBrk 24, part pcb pcbStatus 1]

theorem finishText_books (s : Kernel) (pcb : Ptr) (image : ProcessImage) :
    s.SameBooks (s.finishText pcb image) := by
  refine SameBooks.trans (t := s.finishStack pcb image) ?_ (releaseMemorySegment_books _ _)
  exact .of_mem _ _ _ _

theorem finishRelease_books (s : Kernel) (pcb : Ptr) (image : ProcessImage) :
    s.SameBooks (s.finishRelease pcb image) :=
  (finishText_books s pcb image).trans (releaseMemorySegment_books _ _)

theorem finishRelease_regions (s : Kernel) (pcb : Ptr) (image : ProcessImage) :
    (s.finishRelease pcb image).regions.Sublist s.regions :=
  (releaseMemorySegment_regions (s.finishText pcb image) _).trans
    (releaseMemorySegment_regions (s.finishStack pcb image) _)

theorem part_covered {S : List Span} {i j n k : Nat} (h : part p i n ∈ S) (hij : i ≤ j)
    (hk : j + k ≤ i + n) : Covered S (part p j k) := by
  obtain ⟨c, rfl⟩ := Nat.exists_eq_add_of_le hij
  have hpart : part p (i + c) k = part (p + BitVec.ofNat 32 i) c k := by
    rw [part, part, BitVec.ofNat_add, BitVec.add_assoc]
  rw [hpart]
  exact .part h (by omega)

theorem finishStack_ptext (s : Kernel) (pcb : Ptr) (image : ProcessImage) :
    (s.finishStack pcb image).ptext pcb = s.ptext pcb := by
  simp (disch := decide) only [finishStack, Kernel.ptext, word_setWord_ne]

theorem finishText_alters (s : Kernel) (pcb : Ptr) (image : ProcessImage) :
    Alters [part pcb pcbMscratch 4, part (s.ptext pcb) memoryRegionRefCount 4] s.mem
      (s.finishText pcb image).mem := by
  have hstack : Alters [part pcb pcbMscratch 4, part (s.ptext pcb) memoryRegionRefCount 4] s.mem
      (s.finishStack pcb image).mem := (Alters.refl _ s.mem).setWord (.of_mem List.mem_cons_self)
  rw [finishText, finishStack_ptext]
  refine hstack.trans ((releaseMemorySegment_alters _ _).mono (List.forall_mem_singleton.2 ?_))
  exact .of_mem (List.mem_cons_of_mem _ List.mem_cons_self)

/-- The second pointer is read after the first count is written. -/
theorem finishText_pdata (hpl : s.Placed) (hpcb : pcb ∈ s.pcbs) (htext : s.RegionOutside (s.ptext pcb)) :
    (s.finishText pcb image).pdata pcb = s.pdata pcb := by
  refine (finishText_alters s pcb image).word ?_
  simp only [List.forall_mem_cons]
  exact ⟨hpl.spares hpcb (by decide) (by decide) (by decide) pcb hpcb,
    (hpl.outside_count htext).spares (by decide) pcb hpcb, by simp⟩

theorem finishRelease_alters (hpl : s.Placed) (hpcb : pcb ∈ s.pcbs)
    (htext : s.RegionOutside (s.ptext pcb)) :
    Alters (s.finishSpans pcb) s.mem (s.finishRelease pcb image).mem := by
  rw [finishRelease, finishText_pdata hpl hpcb htext]
  refine ((finishText_alters s pcb image).mono ?_).trans ((releaseMemorySegment_alters _ _).mono ?_)
  · simp only [List.forall_mem_cons, finishSpans]
    refine ⟨part_covered (i := 120) (n := 12) ?_ (by decide) (by decide), .of_mem ?_, by simp⟩
    · exact List.mem_of_getElem? (i := 2) rfl
    · exact List.mem_cons_self
  · exact List.forall_mem_singleton.2 (.of_mem (List.mem_cons_of_mem _ List.mem_cons_self))

/-- The stores of `elf_finish` in the PCB. -/
def finishStores (m : Mem) (pcb : Ptr) (image : ProcessImage) (d : Word) : Mem :=
  let m := setWord m pcb pcbBrk image.heapStart
  let m := setWord m pcb pcbPheapStart image.heapStart
  let m := setWord m pcb pcbMepc image.mepc
  let m := setWord m pcb pcbPdataMemoryRegion image.pdataMemoryRegion
  let m := setWord m pcb pcbPtextMemoryRegion image.ptextMemoryRegion
  let m := setWord m pcb pcbPdataStart image.pdataStart
  let m := setWord m pcb pcbParentDirCluster d
  setByte m pcb pcbStatus stateReady

theorem elfFinishDone_eq : s.elfFinishDone pcb image d =
    { s.finishRelease pcb image with
      mem := finishStores (s.finishRelease pcb image).mem pcb image d
      blocked := (s.finishRelease pcb image).blocked.filter (· ≠ pcb) } := rfl

theorem elfFinishDone_books (s : Kernel) (pcb : Ptr) (image : ProcessImage) (d : Word) :
    ({ s with blocked := s.blocked.filter (· ≠ pcb) } : Kernel).SameBooks
      (s.elfFinishDone pcb image d) := by
  have h := finishRelease_books s pcb image
  rw [elfFinishDone_eq]
  exact ⟨h.currentPcb, h.kidle, h.csr, h.pcbNextPid, h.pcbs, h.loads, h.requests, h.exited,
    congrArg (List.filter (· ≠ pcb)) h.blocked⟩

theorem elfFinishDone_alters (hpl : s.Placed) (hpcb : pcb ∈ s.pcbs)
    (htext : s.RegionOutside (s.ptext pcb)) :
    Alters (s.finishSpans pcb) s.mem (s.elfFinishDone pcb image d).mem := by
  have hmem : ∀ {b : Span} {i : Nat}, (s.finishSpans pcb)[i]? = some b → b ∈ s.finishSpans pcb :=
    List.mem_of_getElem?
  have hbrk : ∀ {j : Nat}, pcbBrk ≤ j → j + 4 ≤ pcbBrk + 24 → Covered (s.finishSpans pcb) (part pcb j 4) :=
    part_covered (hmem (i := 3) rfl)
  have hrelease : Alters (s.finishSpans pcb) s.mem (s.finishRelease pcb image).mem :=
    finishRelease_alters hpl hpcb htext
  rw [elfFinishDone_eq]
  refine (((((((hrelease.setWord ?_).setWord ?_).setWord ?_).setWord ?_).setWord ?_).setWord ?_).setWord
    ?_).setByte ?_
  · exact hbrk (by decide) (by decide)
  · exact hbrk (by decide) (by decide)
  · exact part_covered (hmem (i := 2) rfl) (by decide) (by decide)
  · exact hbrk (by decide) (by decide)
  · exact hbrk (by decide) (by decide)
  · exact hbrk (by decide) (by decide)
  · exact hbrk (by decide) (by decide)
  · exact .of_mem (hmem (i := 4) rfl)

/-- The fields that the end of a load spares, in every PCB. -/
theorem finish_spares (hpl : s.Placed) (hpcb : pcb ∈ s.pcbs) (htext : s.RegionOutside (s.ptext pcb))
    (hdata : s.RegionOutside (s.pdata pcb)) {i n : Nat} (hi : 132 ≤ i ∧ i + n ≤ 136 ∨ 164 ≤ i ∧ i + n ≤ 167) :
    ∀ b ∈ s.finishSpans pcb, s.Spares i n b := by
  have hhi : i + n ≤ pcbSize := by rw [pcbSize]; omega
  simp only [finishSpans, List.forall_mem_cons]
  refine ⟨(hpl.outside_count htext).spares hhi, (hpl.outside_count hdata).spares hhi,
    hpl.spares hpcb ?_ (by decide) hhi, hpl.spares hpcb ?_ (by decide) hhi,
    hpl.spares hpcb ?_ (by decide) hhi, by simp⟩
  all_goals simp only [pcbMepc, pcbBrk, pcbStatus]; omega

/-- The fields of the other PCBs. -/
theorem finish_spares_ne (hpl : s.Placed) (hpcb : pcb ∈ s.pcbs) (htext : s.RegionOutside (s.ptext pcb))
    (hdata : s.RegionOutside (s.pdata pcb)) (hp : p ∈ s.pcbs) (hne : p ≠ pcb) {i n : Nat}
    (hhi : i + n ≤ pcbSize) : ∀ b ∈ s.finishSpans pcb, b.Apart (part p i n) := by
  have hap := hpl.apart hpcb hp hne.symm
  simp only [finishSpans, List.forall_mem_cons]
  exact ⟨(hpl.outside_count htext).spares hhi p hp, (hpl.outside_count hdata).spares hhi p hp,
    hap.part (by decide) hhi, hap.part (by decide) hhi, hap.part (by decide) hhi, by simp⟩

/-- **What the end of a load does to the table.** -/
structure Finished (s t : Kernel) (pcb : Ptr) (image : ProcessImage) : Prop where
  next : ∀ p ∈ s.pcbs, t.next p = s.next p
  pid : ∀ p ∈ s.pcbs, t.pid p = s.pid p
  ptext_pcb : t.ptext pcb = image.ptextMemoryRegion
  ptext : ∀ p ∈ s.pcbs, p ≠ pcb → t.ptext p = s.ptext p
  pdata_pcb : t.pdata pcb = image.pdataMemoryRegion
  pdata : ∀ p ∈ s.pcbs, p ≠ pcb → t.pdata p = s.pdata p
  status_pcb : t.status pcb = stateReady
  status : ∀ p ∈ s.pcbs, p ≠ pcb → t.status p = s.status p

theorem elfFinishDone_finished (hpl : s.Placed) (hpcb : pcb ∈ s.pcbs)
    (htext : s.RegionOutside (s.ptext pcb)) (hdata : s.RegionOutside (s.pdata pcb)) :
    s.Finished (s.elfFinishDone pcb image d) pcb image := by
  have halter : Alters (s.finishSpans pcb) s.mem (s.elfFinishDone pcb image d).mem :=
    elfFinishDone_alters hpl hpcb htext
  have hall := fun {i n} => @finish_spares s pcb hpl hpcb htext hdata i n
  have hne := fun {p : Ptr} hp hne {i n} => @finish_spares_ne s p pcb hpl hpcb htext hdata hp hne i n
  constructor
  · exact fun p hp => halter.word fun b hb => hall (Or.inl (by decide)) b hb p hp
  · exact fun p hp => halter.byte fun b hb => hall (Or.inr (by decide)) b hb p hp
  · simp (disch := decide) only [elfFinishDone_eq, finishStores, Kernel.ptext, word_setByte_ne,
      word_setWord_ne, word_setWord]
  · exact fun p hp hpne => halter.word (hne hp hpne (by decide))
  · simp (disch := decide) only [elfFinishDone_eq, finishStores, Kernel.pdata, word_setByte_ne,
      word_setWord_ne, word_setWord]
  · exact fun p hp hpne => halter.word (hne hp hpne (by decide))
  · simp only [elfFinishDone_eq, finishStores, Kernel.status, byte_setByte]
  · exact fun p hp hpne => halter.byte (hne hp hpne (by decide))

end Finish

/-- A status is stored in a PCB. -/
theorem same_of_status {v : Byte} (hpl : s.Placed) (hp : p ∈ s.pcbs)
    (ht : t.mem = setByte s.mem p pcbStatus v) : s.Same t := by
  refine Same.of_alters (ht ▸ alters_setByte _ _ _ _) (List.forall_mem_singleton.2 ?_)
  exact hpl.sparesTable hp (Or.inr (Or.inr (Or.inr (by decide))))

section LoadBooks

variable (s : Kernel) (pcb : Ptr) (segs : List Segment) (image : ProcessImage)

/-- What a load that is over leaves in the books. -/
abbrev loadOver : Kernel := { s with loads := s.loads.erase pcb, blocked := s.blocked.filter (· ≠ pcb) }

theorem loaded_books (d : Word) :
    (s.loadOver pcb).SameBooks ((s.loadedStart pcb segs).elfFinishDone pcb image d) := by
  have hstart := loadedStart_books s pcb segs
  have hbooks := elfFinishDone_books (s.loadedStart pcb segs) pcb image d
  exact ⟨hbooks.currentPcb.trans hstart.currentPcb, hbooks.kidle.trans hstart.kidle,
    hbooks.csr.trans hstart.csr, hbooks.pcbNextPid.trans hstart.pcbNextPid,
    hbooks.pcbs.trans hstart.pcbs, hbooks.loads.trans hstart.loads,
    hbooks.requests.trans hstart.requests, hbooks.exited.trans hstart.exited,
    hbooks.blocked.trans (congrArg (List.filter (· ≠ pcb)) hstart.blocked)⟩

theorem loadFailed_books :
    (s.loadOver pcb).SameBooks ((s.loadedStart pcb segs).elfFinishError pcb image) := by
  have hstart := loadedStart_books s pcb segs
  exact ⟨hstart.currentPcb, hstart.kidle, hstart.csr, hstart.pcbNextPid, hstart.pcbs, hstart.loads,
    hstart.requests, hstart.exited, congrArg (List.filter (· ≠ pcb)) hstart.blocked⟩

end LoadBooks

/-! ## Decisions -/

/-- **What a decision of the scheduler for `a0` does.** -/
structure Decided (s t : Kernel) (a0 : Ptr) : Prop where
  currentPcb : t.currentPcb = if a0 = null then s.currentPcb else a0
  kidle : t.kidle = 0 → a0 ≠ null
  alters : Alters [part s.currentPcb pcbMepc 12] s.mem t.mem
  pcbNextPid : t.pcbNextPid = s.pcbNextPid
  pcbs : t.pcbs = s.pcbs
  regions : t.regions = s.regions
  loads : t.loads = s.loads
  requests : t.requests = s.requests
  exited : t.exited = s.exited
  blocked : t.blocked = s.blocked
  released : t.released = s.released

theorem parkCsr_alters (m : Mem) (p : Ptr) (c : Csr) : Alters [part p pcbMepc 12] m (parkCsr m p c) := by
  have hcover : ∀ {j : Nat}, pcbMepc ≤ j → j + 4 ≤ pcbMepc + 12 →
      Covered [part p pcbMepc 12] (part p j 4) := part_covered (List.mem_singleton_self _)
  exact (((Alters.refl _ m).setWord (hcover (by decide) (by decide))).setWord
    (hcover (by decide) (by decide))).setWord (hcover (by decide) (by decide))

/-- The process entered, and whether there is one. -/
theorem schedule_entered {m m' : Machine} (h : RiscyOS.schedule idle m = some m') :
    ∃ a0, scheduleNext m = some a0 ∧ m'.currentPcb = (if a0 = null then m.currentPcb else a0) ∧
      (m'.kidle = 0 → a0 ≠ null) := by
  obtain ⟨a0, hnext, ⟨rfl, hk, rfl⟩ | ⟨-, rfl⟩⟩ := schedule_cases h
  · exact ⟨null, hnext, (if_pos rfl).symm, fun h => absurd h hk⟩
  refine ⟨a0, hnext, ?_⟩
  by_cases ha : a0 = null
  · subst ha
    rw [contextSwitch_null, if_pos rfl]
    simp only
    split
    · exact ⟨rfl, fun h => absurd (show (1 : Byte) = 0 from h) (by decide)⟩
    · exact ⟨rfl, fun h => absurd (show (1 : Byte) = 0 from h) (by decide)⟩
  · rw [if_neg ha]
    exact ⟨(contextSwitch_queue idle ha).1, fun _ => ha⟩

theorem schedule_decided (h : s.schedule idle = some t) :
    ∃ a0, scheduleNext s.machine = some a0 ∧ s.Decided t a0 := by
  rw [Kernel.schedule, Option.map_eq_some_iff] at h
  obtain ⟨m', hm, rfl⟩ := h
  obtain ⟨a0, hnext, hcur, hidle⟩ := schedule_entered hm
  refine ⟨a0, hnext, hcur, hidle, ?_, rfl, rfl, rfl, rfl, rfl, rfl, rfl, rfl⟩
  simp only
  split
  · exact Alters.refl _ _
  · exact parkCsr_alters _ _ _

/-! ## Every step -/

theorem exitParent_books {fuel : Nat} {t0 : Ptr} (h : exitParent fuel s t0 = some t) :
    t.pcbs.Sublist s.pcbs ∧ t.regions = s.regions := by
  induction fuel generalizing s t0 with
  | zero => exact absurd h (by simp [exitParent])
  | succ fuel ih =>
    rw [exitParent, Option.bind_eq_bind, Option.bind_eq_some_iff] at h
    obtain ⟨a0, -, h⟩ := h
    split at h
    · obtain ⟨hpcbs, hregions⟩ := ih (s := { s with mem := setByte s.mem s.exitPcb pcbPpid 1 }) h
      exact ⟨hpcbs, hregions⟩
    · split at h
      · obtain rfl := Option.some.inj h
        exact ⟨List.erase_sublist, rfl⟩
      · obtain rfl := Option.some.inj h
        exact ⟨List.Sublist.refl _, rfl⟩

/-- **The records stay apart**, whatever happens. -/
theorem Step.placed (h : s.Step idle e t) (hpl : s.Placed) : t.Placed := by
  cases h with
  | kexecve slab hslab =>
    by_cases hnull : slab = null
    · exact hpl.sublist (by simp [Kernel.kexecve, elfLoadSubmit, allocPcb, hnull]) (List.Sublist.refl _)
    · exact hpl.cons_pcb hslab hnull (if_neg hnull) rfl
  | fork g hrun hcur hpcb hregion =>
    by_cases hg : g.Enough
    · rw [ecallFork_eq hg]
      have halloc : (s.allocPcb g.pcb).Placed := hpl.cons_pcb hpcb hg.2.1 (if_neg hg.2.1) rfl
      exact halloc.cons_region hregion hg.2.2 rfl rfl
    · have hecall : s.ecall.Placed := hpl.congr rfl rfl
      obtain ⟨hbooks, hregions⟩ := ecallFork_fail_books s.currentPcb hecall hpcb hg
      exact hpl.sublist (by rw [hbooks.pcbs]; exact List.Sublist.refl _) hregions
  | exit junk hrun hcur hexit =>
    obtain ⟨hpcbs, hregions⟩ := exitParent_books hexit
    refine hpl.sublist ?_ ?_
    · rwa [(exitRelease_books s.ecall s.currentPcb junk).pcbs] at hpcbs
    · rw [hregions]
      exact exitRelease_regions s.ecall s.currentPcb junk
  | execve hrun hcur => exact hpl.congr rfl rfl
  | loaded pcb hdr segs d hload hsegs =>
    have halloc : (s.loadedStart pcb segs).Placed := loadedStart_placed hpl hsegs
    have hbooks := finishRelease_books (s.loadedStart pcb segs) pcb (imageOf hdr segs)
    rw [elfFinishDone_eq]
    exact halloc.sublist (by rw [← loadedStart, hbooks.pcbs]) (finishRelease_regions _ _ _)
  | loadFailed pcb hdr segs hload hsegs =>
    have halloc : (s.loadedStart pcb segs).Placed := loadedStart_placed hpl hsegs
    exact halloc.sublist (List.Sublist.refl _) (List.erase_sublist.trans List.erase_sublist)
  | write made hrun hcur hwrite =>
    obtain ⟨a0, -, hdecided⟩ := schedule_decided hwrite
    refine hpl.congr (hdecided.pcbs.trans ?_) (hdecided.regions.trans ?_)
    · cases made <;> rfl
    · cases made <;> rfl
  | completed pcb => exact hpl.congr rfl rfl
  | schedule hdecide =>
    obtain ⟨a0, -, hdecided⟩ := schedule_decided hdecide
    exact hpl.congr hdecided.pcbs hdecided.regions
  | others m csr hothers => exact hpl.congr rfl rfl

theorem Booted.placed (h : s.Booted) : s.Placed := by
  constructor <;> simp [h.pcbs, h.regions]

end Kernel

end RiscyOS
