import RiscyOS.Fs.ElfStages

/-!
# Whether an image is complete

`elf_finish` takes the two regions of the image for granted: it adds the size of the text to the start
of the data, and puts both into the process block, where `mmu_set_proc` follows them.  A region is in
the image once a header has been read that is loadable and, for the text, executable, for the data,
not (`ImageOf`).  Nothing makes sure that there has been one of either kind when the headers are
through, and nothing that a process whose load has failed had regions before.

`elf_complete_iff` says when all is well nonetheless.  It is about every run of a load, with sectors
of any contents: `ImageOf` is carried from callback to callback, by what a step of the loader does
(`ElfAdvances`).
-/

set_option autoImplicit false

namespace RiscyOS

open Memory Callback Bitmap

/-! ## Headers -/

/-- The last header of a text segment. -/
def textHeader (l : List ElfPhdr) : Option ElfPhdr :=
  (l.filter fun ph => ph.IsLoad ∧ ph.IsText).getLast?

/-- The last header of a data segment. -/
def dataHeader (l : List ElfPhdr) : Option ElfPhdr :=
  (l.filter fun ph => ph.IsLoad ∧ ¬ ph.IsText).getLast?

/-- There is an executable and a non-executable `PT_LOAD` among the headers. -/
def HasBoth (l : List ElfPhdr) : Prop :=
  (∃ ph ∈ l, ph.IsLoad ∧ ph.IsText) ∧ ∃ ph ∈ l, ph.IsLoad ∧ ¬ ph.IsText

instance : DecidablePred HasBoth := fun _ => inferInstanceAs (Decidable (_ ∧ _))

section Headers

variable {l : List ElfPhdr} {ph : ElfPhdr}

theorem getLast?_filter_append {α : Type*} (p : α → Prop) [DecidablePred p] (l : List α) (a : α) :
    ((l ++ [a]).filter fun b => p b).getLast? = if p a then some a else (l.filter fun b => p b).getLast? := by
  rw [List.filter_append, List.filter_singleton]
  by_cases h : p a
  · simp [h]
  · simp [h]

theorem textHeader_append : textHeader (l ++ [ph]) =
    if ph.IsLoad ∧ ph.IsText then some ph else textHeader l :=
  getLast?_filter_append (fun ph : ElfPhdr => ph.IsLoad ∧ ph.IsText) l ph

theorem dataHeader_append : dataHeader (l ++ [ph]) =
    if ph.IsLoad ∧ ¬ ph.IsText then some ph else dataHeader l :=
  getLast?_filter_append (fun ph : ElfPhdr => ph.IsLoad ∧ ¬ ph.IsText) l ph

theorem hasBoth_iff : HasBoth l ↔ textHeader l ≠ none ∧ dataHeader l ≠ none := by
  simp [HasBoth, textHeader, dataHeader]

end Headers

/-! ## The image -/

/-- **The image is that of its headers**: it has a region of either kind if there has been a header of
that kind, and the last data segment determines where its data and its heap start. -/
structure ImageOf (c : ElfCtx) : Prop where
  text : c.tmpImage.ptextMemoryRegion = null ↔ textHeader c.processed = none
  data : c.tmpImage.pdataMemoryRegion = null ↔ dataHeader c.processed = none
  layout : ∀ ph, dataHeader c.processed = some ph →
    c.tmpImage.pdataStart = ph.pVaddr ∧ c.tmpImage.heapStart = ph.heapStart

section Image

variable {d : FatDriver} {ctx : Ptr} {w w' : FsWorld} {status : Int}

theorem imageSegment_of_isText {image : ProcessImage} {hdr : ElfEhdr} {ph : ElfPhdr} {region : Ptr}
    (h : ph.IsText) : imageSegment image hdr ph region =
      { image with ptextMemoryRegion := region, mepc := hdr.eEntry } := if_pos h

theorem imageSegment_of_not_isText {image : ProcessImage} {hdr : ElfEhdr} {ph : ElfPhdr} {region : Ptr}
    (h : ¬ ph.IsText) : imageSegment image hdr ph region =
      { image with
        pdataMemoryRegion := region, pdataStart := ph.pVaddr, heapStart := ph.heapStart } := if_neg h

/-- **A step of the loader keeps it so.** -/
theorem ImageOf.advances (h : ImageOf (w.elfCtx ctx)) (hstep : ElfAdvances ctx w w') :
    ImageOf (w'.elfCtx ctx) := by
  cases hstep with
  | wait hprocessed himage _ =>
    refine ⟨?_, ?_, ?_⟩ <;> rw [hprocessed, himage]
    · exact h.text
    · exact h.data
    · exact h.layout
  | skip hload hprocessed himage _ =>
    refine ⟨?_, ?_, ?_⟩ <;> rw [hprocessed, himage]
    · rw [textHeader_append, if_neg fun hc => hload hc.1]
      exact h.text
    · rw [dataHeader_append, if_neg fun hc => hload hc.1]
      exact h.data
    · rw [dataHeader_append, if_neg fun hc => hload hc.1]
      exact h.layout
  | segment hload hrecord hprocessed himage _ =>
    by_cases htext : (elfPhdr w ctx).IsText
    · have hseg := himage
      rw [imageSegment_of_isText htext] at hseg
      refine ⟨?_, ?_, ?_⟩ <;> rw [hprocessed, hseg]
      · rw [textHeader_append, if_pos ⟨hload, htext⟩]
        exact iff_of_false hrecord nofun
      · rw [dataHeader_append, if_neg fun hc => hc.2 htext]
        exact h.data
      · rw [dataHeader_append, if_neg fun hc => hc.2 htext]
        exact h.layout
    · have hseg := himage
      rw [imageSegment_of_not_isText htext] at hseg
      refine ⟨?_, ?_, ?_⟩ <;> rw [hprocessed, hseg]
      · rw [textHeader_append, if_neg fun hc => htext hc.2]
        exact h.text
      · rw [dataHeader_append, if_pos ⟨hload, htext⟩]
        exact iff_of_false hrecord nofun
      · rw [dataHeader_append, if_pos ⟨hload, htext⟩]
        rintro ph ⟨⟩
        exact ⟨rfl, rfl⟩

/-- The image of no headers is empty. -/
theorem ImageOf.empty {c : ElfCtx} (himage : c.tmpImage = ⟨null, null, 0, 0, 0⟩)
    (hprocessed : c.processed = []) : ImageOf c := by
  refine ⟨?_, ?_, ?_⟩ <;> rw [hprocessed]
  · rw [himage]
    exact iff_of_true rfl rfl
  · rw [himage]
    exact iff_of_true rfl rfl
  · exact nofun

/-- **Every callback keeps it so.** -/
theorem ImageOf.fsCode {rx : Sector} {k : FsClosure} (h : ImageOf (w.elfCtx ctx))
    (hgo : (fsCode d rx k status w).2 ≠ .stop) :
    ImageOf ((RiscyOS.fsCode d rx k status w).1.elfCtx ctx) := by
  by_cases hk : k = (.elfStep, ctx)
  · subst hk
    exact h.advances ((elfStep_advances d ctx status w).resolve_left hgo).1
  · rw [fsCode_elfCtx_of_ne hk]
    exact h

/-- **In every state of a load** that goes on, the image is that of the headers processed. -/
theorem LoadReach.imageOf {P : LoadSys → FsClosure → Int → Prop} {c : LoadSys}
    (h : LoadReach P d ctx c) : c.action ≠ .stop → ImageOf (c.world.elfCtx ctx) := by
  induction h with
  | submit hctx _ =>
    intro _
    subst hctx
    exact .empty (congrArg ElfCtx.tmpImage (elfLoadSubmit_same ..).1)
      (congrArg ElfCtx.processed (elfLoadSubmit_same ..).1)
  | others _ hpost hw ih =>
    intro _
    have hsame : _ = _ := hw.loader
    dsimp only at hsame ⊢
    rw [hsame]
    exact ih (by rw [hpost]; nofun)
  | complete _ _ _ hpost ih => exact fun _ => ih (by rw [hpost]; nofun)
  | @run c k status _ hcall _ ih =>
    have himage := ih (by rw [hcall]; nofun)
    obtain ⟨hworld, haction⟩ := LoadSys.run_code d k status c
    rw [hworld, haction]
    refine ImageOf.fsCode ?_
    rwa [(LoadSys.stocked_same k status c).1.elfCtx]

/-! ## The end of a load -/

@[simp]
theorem unblockProcess_pcb (p : Ptr) (w : FsWorld) :
    (unblockProcess p w).pcb p = { w.pcb p with pstatus := stateReady } := Function.update_self ..

/-- What `elf_finish` does to a load that has failed. -/
theorem elfFinish_error (hstate : (w.elfCtx ctx).state = .error) :
    elfFinish ctx w = (unblockProcess (w.elfCtx ctx).pcb w, .stop) := by
  rw [elfFinish]
  exact if_pos hstate

/-- The process is made `READY`. -/
theorem elfFinish_ready (ctx : Ptr) (w : FsWorld) :
    ((elfFinish ctx w).1.pcb (w.elfCtx ctx).pcb).pstatus = stateReady := by
  rw [elfFinish]
  dsimp only
  split
  · rw [unblockProcess_pcb]
  · rw [unblockProcess_pcb]

/-- `elf_finish` is run for a load that has failed, or for one that is done. -/
theorem elfFinishState_cases {s : ElfState} (h : elfFinishState ctx status w = some s) :
    s = .error ∨ s = .done := by
  rw [elfFinishState] at h
  split at h
  · exact Or.inl (Option.some.inj h).symm
  · split at h
    · split at h
      · exact Or.inl (Option.some.inj h).symm
      · cases h
    · split at h
      · cases h
      · split at h
        · exact Or.inl (Option.some.inj h).symm
        · cases h
    · exact Or.inr (Option.some.inj h).symm
    all_goals cases h

/-- **The regions that the process has after the load**: those it had, if the load has failed, and those
of the image otherwise. -/
theorem elfStep_regions {s : ElfState} (h : elfFinishState ctx status w = some s) :
    ((elfStep d ctx status w).1.pcb (w.elfCtx ctx).pcb).pstatus = stateReady ∧
    (s = .error → ((elfStep d ctx status w).1.pcb (w.elfCtx ctx).pcb).ptextMemoryRegion =
          (w.pcb (w.elfCtx ctx).pcb).ptextMemoryRegion ∧
        ((elfStep d ctx status w).1.pcb (w.elfCtx ctx).pcb).pdataMemoryRegion =
          (w.pcb (w.elfCtx ctx).pcb).pdataMemoryRegion) ∧
      (s = .done → ((elfStep d ctx status w).1.pcb (w.elfCtx ctx).pcb).ptextMemoryRegion =
          (w.elfCtx ctx).tmpImage.ptextMemoryRegion ∧
        ((elfStep d ctx status w).1.pcb (w.elfCtx ctx).pcb).pdataMemoryRegion =
          (w.elfCtx ctx).tmpImage.pdataMemoryRegion) := by
  obtain ⟨w₁, heq, hstate, hkeeps, -⟩ := elfStep_of_finish (d := d) h
  rw [heq, ← hkeeps.target]
  refine ⟨elfFinish_ready ctx w₁, ?_, ?_⟩
  · rintro rfl
    rw [elfFinish_error hstate, unblockProcess_pcb, hkeeps.pcb]
    exact ⟨rfl, rfl⟩
  · rintro rfl
    obtain ⟨-, -, -, -, htext, hdata, -⟩ := elfFinish_done hstate hkeeps.image rfl
    exact ⟨htext, hdata⟩

end Image

namespace LoadSys

variable (ctx : Ptr) (status : Int) (c : LoadSys)

/-- The state in which the loader, called with `status`, runs `elf_finish`, if it does. -/
def ends : Option ElfState := elfFinishState ctx status (c.stocked (.elfStep, ctx) status)

/-- The process block for which the image is loaded, when the loader has been called. -/
def pcbAfter (d : FatDriver) : Pcb :=
  (c.run d (.elfStep, ctx) status).world.pcb (c.world.elfCtx ctx).pcb

/-- **The image is complete** if the loader, called with `status`, ends the load. -/
structure Complete (d : FatDriver) : Prop where
  /-- The success branch is reached only with both regions. -/
  regions : c.ends ctx status = some .done →
    (c.world.elfCtx ctx).tmpImage.ptextMemoryRegion ≠ null ∧
      (c.world.elfCtx ctx).tmpImage.pdataMemoryRegion ≠ null
  /-- Without both kinds of headers the load ends in `ELF_ERROR`. -/
  headers : ∀ s, c.ends ctx status = some s → ¬ HasBoth (c.world.elfCtx ctx).processed → s = .error
  /-- The process is made `READY` only with both regions. -/
  ready : c.ends ctx status ≠ none → (c.pcbAfter ctx status d).pstatus = stateReady →
    (c.pcbAfter ctx status d).ptextMemoryRegion ≠ null ∧
      (c.pcbAfter ctx status d).pdataMemoryRegion ≠ null

/-- **When it is.**  If the load gets through its headers, then there is an executable and a
non-executable `PT_LOAD` among those it has read; and if it fails, then the process had both regions
before. -/
def Whole : Prop :=
  (c.ends ctx status = some .done → HasBoth (c.world.elfCtx ctx).processed) ∧
    (c.ends ctx status = some .error →
      (c.world.pcb (c.world.elfCtx ctx).pcb).ptextMemoryRegion ≠ null ∧
        (c.world.pcb (c.world.elfCtx ctx).pcb).pdataMemoryRegion ≠ null)

end LoadSys

/-- **A load gives a process a complete image** if and only if its file has one and it does not fail for
a process without regions.  This holds in every run, whatever the sectors hold, however the reads end
and whatever else happens in between, when the loader is called. -/
theorem elf_complete_iff (d : FatDriver) (ctx : Ptr) (c : LoadSys) (status : Int)
    (h : LoadReach (fun _ _ _ => True) d ctx c) (hcall : c.action = .call (.elfStep, ctx) status) :
    c.Complete ctx status d ↔ c.Whole ctx status := by
  have himage := h.imageOf (by rw [hcall]; nofun)
  obtain ⟨hloads, hprocesses⟩ := LoadSys.stocked_same (.elfStep, ctx) status c
  -- the process afterwards
  have hafter : ∀ s, c.ends ctx status = some s → (c.pcbAfter ctx status d).pstatus = stateReady ∧
      (s = .error → (c.pcbAfter ctx status d).ptextMemoryRegion =
          (c.world.pcb (c.world.elfCtx ctx).pcb).ptextMemoryRegion ∧
        (c.pcbAfter ctx status d).pdataMemoryRegion =
          (c.world.pcb (c.world.elfCtx ctx).pcb).pdataMemoryRegion) ∧
      (s = .done → (c.pcbAfter ctx status d).ptextMemoryRegion =
          (c.world.elfCtx ctx).tmpImage.ptextMemoryRegion ∧
        (c.pcbAfter ctx status d).pdataMemoryRegion =
          (c.world.elfCtx ctx).tmpImage.pdataMemoryRegion) := by
    intro s hs
    have hregions := elfStep_regions (d := d) hs
    rw [hloads.elfCtx, hprocesses.pcb] at hregions
    rw [LoadSys.pcbAfter, (LoadSys.run_code d _ status c).1]
    exact hregions
  -- the regions of the image are not null when there are headers of both kinds
  have hboth : HasBoth (c.world.elfCtx ctx).processed ↔
      (c.world.elfCtx ctx).tmpImage.ptextMemoryRegion ≠ null ∧
        (c.world.elfCtx ctx).tmpImage.pdataMemoryRegion ≠ null := by
    rw [hasBoth_iff, Ne, Ne, Ne, Ne, himage.text, himage.data]
  constructor
  · intro hc
    refine ⟨fun hdone => hboth.2 (hc.regions hdone), fun herror => ?_⟩
    obtain ⟨hready, hkept, -⟩ := hafter _ herror
    obtain ⟨htext, hdata⟩ := hkept rfl
    rw [← htext, ← hdata]
    exact hc.ready (by rw [herror]; nofun) hready
  · rintro ⟨hdone, herror⟩
    have hcases : ∀ s, c.ends ctx status = some s → s = .error ∨ s = .done := fun s => elfFinishState_cases
    refine ⟨fun h => hboth.1 (hdone h), fun s hs hnot => ?_, fun hends _ => ?_⟩
    · rcases hcases s hs with rfl | rfl
      · rfl
      · exact absurd (hdone hs) hnot
    · obtain ⟨s, hs⟩ := Option.ne_none_iff_exists'.1 hends
      obtain ⟨-, hkept, hnew⟩ := hafter s hs
      rcases hcases s hs with rfl | rfl
      · rw [(hkept rfl).1, (hkept rfl).2]
        exact herror hs
      · rw [(hnew rfl).1, (hnew rfl).2]
        exact hboth.1 (hdone hs)

/-- The executable with a text and a data segment gets both regions. -/
theorem elf_complete_overlapping :
    let c := loadSysAfter overlappingElf.disk 21
    c.action = .call (.elfStep, 0x1000) 0 ∧ c.ends 0x1000 0 = some .done ∧
      c.Complete 0x1000 0 smallDriver := by
  have hcall : (loadSysAfter overlappingElf.disk 21).action = .call (.elfStep, 0x1000) 0 := by
    decide +kernel
  have hends : (loadSysAfter overlappingElf.disk 21).ends 0x1000 0 = some .done := by decide +kernel
  have hboth : HasBoth ((loadSysAfter overlappingElf.disk 21).world.elfCtx 0x1000).processed := by
    decide +kernel
  refine ⟨hcall, hends, (elf_complete_iff smallDriver 0x1000 _ 0
    (loadSysAfter_reach fun _ _ _ _ _ => trivial) hcall).2 ⟨fun _ => hboth, fun herror => ?_⟩⟩
  rw [hends] at herror
  cases herror

/-- A card with an executable that has a text segment only: its second header is not loaded. -/
def textOnlyDisk : Word → Sector :=
  elfDisk ⟨1, 0, 0x10000, 0, 84, 84, 5, 4⟩ ⟨0, 0, 0, 0, 0, 0, 0, 0⟩ []

/-- Its load ends in `ELF_DONE`, with no data region. -/
theorem elf_completes_without_data :
    ¬ ∀ (d : FatDriver) (ctx : Ptr) (c : LoadSys) (status : Int),
      LoadReach (fun _ _ _ => True) d ctx c → c.action = .call (.elfStep, ctx) status →
        c.Complete ctx status d := by
  intro h
  have hcall : (loadSysAfter textOnlyDisk 17).action = .call (.elfStep, 0x1000) 0 := by decide +kernel
  have hends : (loadSysAfter textOnlyDisk 17).ends 0x1000 0 = some .done := by decide +kernel
  have hdata : ((loadSysAfter textOnlyDisk 17).world.elfCtx 0x1000).tmpImage.pdataMemoryRegion = null := by
    decide +kernel
  have hreach : LoadReach (fun _ _ _ => True) smallDriver 0x1000 (loadSysAfter textOnlyDisk 17) :=
    loadSysAfter_reach fun _ _ _ _ _ => trivial
  exact ((h _ _ _ _ hreach hcall).regions hends).2 hdata

end RiscyOS
