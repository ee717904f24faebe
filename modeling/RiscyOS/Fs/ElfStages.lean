import RiscyOS.Fs.ElfLeak
import RiscyOS.Fs.OpenMachine

/-!
# What a callback makes of a load

The opens, reads and seeks that a loader waits for write to contexts of their own, to files and to
memory.  The loaders' contexts and the regions are none of their business (`fsOpenStep_same`,
`fsReadStep_same`, `fsSeekStep_same`), and the process blocks are only where a process has opened a
file, which a loader never lets it: it opens for process 0.

So whatever becomes of a load is done by `elf_step`, and a step that does not end the load does one
of three things (`ElfAdvances`): it goes on with the header it has; it has read a header and passes
over it; or it has read one and gives it a region in the image.  The results about whole loads in
the modules after this one all follow from that.
-/

set_option autoImplicit false

namespace RiscyOS

open Memory Callback

/-- No loader's context and no region is written. -/
structure SameLoads (w w' : FsWorld) : Prop where
  elfCtx : w'.elfCtx = w.elfCtx
  region : w'.region = w.region

/-- No process block is written. -/
structure SameProcesses (w w' : FsWorld) : Prop where
  pcb : w'.pcb = w.pcb
  tfA0 : w'.tfA0 = w.tfA0

section Operations

variable {d : FatDriver} {rx : Sector} {w w' w'' : FsWorld} {status : Int}

theorem SameLoads.refl : SameLoads w w := ⟨rfl, rfl⟩

theorem SameLoads.trans (h : SameLoads w w') (h' : SameLoads w' w'') : SameLoads w w'' :=
  ⟨h'.elfCtx.trans h.elfCtx, h'.region.trans h.region⟩

theorem SameProcesses.refl : SameProcesses w w := ⟨rfl, rfl⟩

theorem SameProcesses.trans (h : SameProcesses w w') (h' : SameProcesses w' w'') :
    SameProcesses w w'' :=
  ⟨h'.pcb.trans h.pcb, h'.tfA0.trans h.tfA0⟩

/-! ## The operations -/

/-- An operation writes to memory, to files, to contexts of its own and to a word of the caller's. -/
theorem same_of_operation {mem : Mem} {file : Ptr → File} {readCtx : Ptr → FsReadCtx}
    {seekCtx : Ptr → FsSeekCtx} {openCtx : Ptr → FsOpenCtx} {cell : Ptr → Word} {kmallocs : Nat → Ptr} :
    SameLoads w { w with mem, file, readCtx, seekCtx, openCtx, cell, kmallocs } ∧
      SameProcesses w { w with mem, file, readCtx, seekCtx, openCtx, cell, kmallocs } :=
  ⟨⟨rfl, rfl⟩, ⟨rfl, rfl⟩⟩

theorem fsSeekSubmit_same (d : FatDriver) (file : Ptr) (t : Word) (cb : FsCallback) (cctx : Ptr)
    (w : FsWorld) : SameLoads w (fsSeekSubmit d file t cb cctx w).1 ∧
      SameProcesses w (fsSeekSubmit d file t cb cctx w).1 := by
  rcases fsSeekSubmit_cases d file t cb cctx w with h | ⟨-, h | ⟨start, skip, -, h⟩⟩
  · rw [h]
    exact ⟨.refl, .refl⟩
  · rw [h]
    exact same_of_operation
  · rw [h]
    exact same_of_operation

theorem fsSeekWhence_same (d : FatDriver) (file : Ptr) (off : Word) (whence : Option SeekWhence)
    (cb : FsCallback) (cctx : Ptr) (w : FsWorld) :
    SameLoads w (fsSeekWhence d file off whence cb cctx w).1 ∧
      SameProcesses w (fsSeekWhence d file off whence cb cctx w).1 := by
  rw [fsSeekWhence]
  split
  · exact fsSeekSubmit_same d file _ cb cctx w
  · exact ⟨.refl, .refl⟩

theorem fsSeekStep_same (d : FatDriver) (rx : Sector) (q : Ptr) (status : Int) (w : FsWorld) :
    SameLoads w (fsSeekStep d rx q status w).1 ∧ SameProcesses w (fsSeekStep d rx q status w).1 := by
  rw [fsSeekStep]
  split
  · exact same_of_operation
  · dsimp only
    split
    · exact same_of_operation
    · split
      · exact same_of_operation
      · exact same_of_operation

theorem fsReadSubmit_same (d : FatDriver) (file buffer : Ptr) (bytes : Word) (cb : FsCallback)
    (cctx : Ptr) (w : FsWorld) : SameLoads w (fsReadSubmit d file buffer bytes cb cctx w).1 ∧
      SameProcesses w (fsReadSubmit d file buffer bytes cb cctx w).1 :=
  same_of_operation

theorem fsReadStep_same (d : FatDriver) (rx : Sector) (r : Ptr) (status : Int) (w : FsWorld) :
    SameLoads w (fsReadStep d rx r status w).1 ∧ SameProcesses w (fsReadStep d rx r status w).1 := by
  rw [fsReadStep]
  split
  · exact same_of_operation
  · cases (w.readCtx r).state with
    | loadContents => exact same_of_operation
    | copyContents =>
      dsimp only
      generalize (if 512 ≤ ((w.file (w.readCtx r).file).currentByte + (w.readCtx r).bytesRemaining : Word)
        then 512 - (w.file (w.readCtx r).file).currentByte else (w.readCtx r).bytesRemaining) = n
      split
      · exact same_of_operation
      · -- a seek to the next sector, with the chunk copied
        generalize hw₁ : FsWorld.setReadCtx _ r _ = w₁
        have hsame : SameLoads w w₁ ∧ SameProcesses w w₁ := by
          rw [← hw₁]
          exact same_of_operation
        obtain ⟨hseek, hseek'⟩ := fsSeekWhence_same d (w.readCtx r).file n (some .cur) .fsReadStep r w₁
        exact ⟨hsame.1.trans hseek, hsame.2.trans hseek'⟩
    | seekRead | done | error => exact ⟨.refl, .refl⟩

/-- An open that ends writes to the block of the process it was made for, if there is one. -/
theorem fsOpenFinish_same (o : Ptr) (w : FsWorld) : SameLoads w (fsOpenFinish o w).1 ∧
    ((w.openCtx o).procId = 0 → SameProcesses w (fsOpenFinish o w).1) := by
  rw [fsOpenFinish]
  dsimp only
  split
  · rename_i hproc
    exact ⟨⟨rfl, rfl⟩, fun h => absurd h hproc⟩
  · split
    · exact ⟨.refl, fun _ => .refl⟩
    · exact ⟨.refl, fun _ => .refl⟩

/-- An open stays that of its process. -/
theorem openStep_procId {c c' : FsOpenCtx} {e : Option DirEntry}
    (h : openStep d rx c status = .finished c' e) : c'.procId = c.procId := by
  rw [openStep] at h
  split at h
  · cases h
    rfl
  · split at h
    · split at h
      · cases h
        rfl
      · split at h
        · cases h
          rfl
        · cases h
      · split at h
        · cases h
        · cases h
    · dsimp only at h
      split at h
      · cases h
        rfl
      · cases h
    · cases h
    · cases h
    · cases h

theorem fsOpenStep_same (d : FatDriver) (rx : Sector) (o : Ptr) (status : Int) (w : FsWorld) :
    SameLoads w (fsOpenStep d rx o status w).1 ∧
      ((w.openCtx o).procId = 0 → SameProcesses w (fsOpenStep d rx o status w).1) := by
  have hshows := fsOpenStep_eq d rx o status w
  cases hout : openStep d rx (w.openCtx o) status with
  | posted c =>
    rw [hout] at hshows
    obtain ⟨cell, heq⟩ := hshows
    rw [heq]
    exact ⟨⟨rfl, rfl⟩, fun _ => ⟨rfl, rfl⟩⟩
  | finished c e =>
    rw [hout] at hshows
    rw [show fsOpenStep d rx o status w = _ from hshows]
    have hproc : c.procId = (w.openCtx o).procId := openStep_procId hout
    obtain ⟨hloads, hprocesses⟩ := fsOpenFinish_same o ((storeOpened c.outFile e w).setOpenCtx o c)
    rw [setOpenCtx_openCtx, hproc] at hprocesses
    have hstored : SameLoads w ((storeOpened c.outFile e w).setOpenCtx o c) ∧
        SameProcesses w ((storeOpened c.outFile e w).setOpenCtx o c) := by
      cases e with
      | none => exact same_of_operation
      | some e => exact same_of_operation
    exact ⟨hstored.1.trans hloads, fun h => hstored.2.trans (hprocesses h)⟩
  | ignored =>
    rw [hout] at hshows
    rw [show fsOpenStep d rx o status w = _ from hshows]
    exact ⟨.refl, fun _ => .refl⟩

/-- So does one that is submitted. -/
theorem fsOpenSubmit_same (d : FatDriver) (path : List Byte) (outFile : Ptr) (procId : Byte)
    (cb : Option FsCallback) (cctx storage : Ptr) (w : FsWorld) :
    SameLoads w (fsOpenSubmitWithDirParent d path outFile procId cb cctx storage w).1 ∧
      SameProcesses w (fsOpenSubmitWithDirParent d path outFile procId cb cctx storage w).1 := by
  obtain ⟨cell, heq⟩ := fsOpenSubmit_eq d path outFile procId cb cctx storage w
  rw [heq]
  exact same_of_operation

/-! ## The loader -/

/-- What a load starts with: no headers, and an empty image. -/
theorem elfLoadSubmit_same (d : FatDriver) (path : List Byte) (pcb : Ptr) (w : FsWorld) :
    (elfLoadSubmit d path pcb w).1.elfCtx w.kmalloc.1 = ⟨.opening, 0, ⟨null, null, 0, 0, 0⟩, pcb, null, []⟩ ∧
      (elfLoadSubmit d path pcb w).1.region = w.region ∧ SameProcesses w (elfLoadSubmit d path pcb w).1 := by
  rw [elfLoadSubmit]
  generalize hv : FsWorld.setFile _ _ _ = v
  obtain ⟨hloads, hprocesses⟩ := fsOpenSubmit_same d path (elfFile w.kmalloc.1) 0 (some .elfStep)
    w.kmalloc.1 (elfParentDirCluster w.kmalloc.1)
    (v.setElfCtx w.kmalloc.1 ⟨.opening, 0, ⟨null, null, 0, 0, 0⟩, pcb, null, []⟩)
  have hregion : v.region = w.region := by
    rw [← hv]
    rfl
  have hsame : SameProcesses w v := by
    rw [← hv]
    exact ⟨rfl, rfl⟩
  refine ⟨?_, hloads.region.trans hregion, hsame.trans ⟨hprocesses.pcb, hprocesses.tfA0⟩⟩
  rw [hloads.elfCtx, setElfCtx_elfCtx]

/-- What ends a load is no concern of the contexts. -/
theorem elfFinish_elfCtx (p : Ptr) (w : FsWorld) : (elfFinish p w).1.elfCtx = w.elfCtx := by
  rw [elfFinish]
  dsimp only
  split
  · rfl
  · rw [unblockProcess]
    dsimp only
    rw [(releaseMemorySegment_spec _ _).2.1, (releaseMemorySegment_spec _ _).2.1]

/-- A loader writes to no other loader's context. -/
theorem elfStep_elfCtx_of_ne {p q : Ptr} (hne : q ≠ p) :
    (elfStep d p status w).1.elfCtx q = w.elfCtx q := by
  have hset : ∀ (v : FsWorld) (c : ElfCtx), v.elfCtx q = w.elfCtx q →
      (v.setElfCtx p c).elfCtx q = w.elfCtx q := fun v c hv => (Function.update_of_ne hne _ _).trans hv
  have hnext : ∀ v : FsWorld, v.elfCtx q = w.elfCtx q →
      (elfReadNextProgramHeader d p v).1.elfCtx q = w.elfCtx q := by
    intro v hv
    rw [elfReadNextProgramHeader]
    dsimp only
    split
    · exact hset v _ hv
    · exact hset v _ hv
  rw [elfStep]
  split
  · rw [elfFinish_elfCtx]
    exact hset w _ rfl
  · dsimp only
    split
    · exact hset w _ rfl
    · split
      · rw [elfFinish_elfCtx]
        exact hset w _ rfl
      · rw [(fsSeekWhence_same ..).1.elfCtx]
        exact hset w _ rfl
    · exact hset w _ rfl
    · split
      · exact hnext _ (hset w _ rfl)
      · split
        · rw [elfFinish_elfCtx]
          exact hset _ _ (hset w _ rfl)
        · split
          · rw [elfFinish_elfCtx]
            exact hset _ _ (hset w _ rfl)
          · rw [(fsSeekWhence_same ..).1.elfCtx]
            exact hset _ _ (hset w _ rfl)
    · exact hset w _ rfl
    · exact hnext _ (hset w _ rfl)
    · rw [elfFinish_elfCtx]
      exact hset w _ rfl
    · rfl
    · rfl

/-- **An operation leaves the loads alone.** -/
theorem fsCode_sameLoads {k : FsClosure} (hk : k.1 ≠ .elfStep) :
    SameLoads w (fsCode d rx k status w).1 := by
  obtain ⟨cb, p⟩ := k
  cases cb with
  | fsOpenStep => exact (fsOpenStep_same d rx p status w).1
  | fsReadStep => exact (fsReadStep_same d rx p status w).1
  | fsSeekStep => exact (fsSeekStep_same d rx p status w).1
  | elfStep => exact absurd rfl hk
  | client => exact .refl

/-- So does another load. -/
theorem fsCode_elfCtx_of_ne {ctx : Ptr} {k : FsClosure} (hk : k ≠ (.elfStep, ctx)) :
    (fsCode d rx k status w).1.elfCtx ctx = w.elfCtx ctx := by
  obtain ⟨cb, p⟩ := k
  by_cases hcb : cb = .elfStep
  · subst hcb
    exact elfStep_elfCtx_of_ne fun h => hk (h ▸ rfl)
  · exact congrFun (fsCode_sameLoads hcb).elfCtx ctx

/-- What a step of the loader at `ctx` does that does not end the load. -/
inductive ElfAdvances (ctx : Ptr) (w w' : FsWorld) : Prop
  /-- It goes on with the header it has. -/
  | wait (hprocessed : (w'.elfCtx ctx).processed = (w.elfCtx ctx).processed)
      (himage : (w'.elfCtx ctx).tmpImage = (w.elfCtx ctx).tmpImage) (hregion : w'.region = w.region)
  /-- It passes over a header. -/
  | skip (hload : ¬ (elfPhdr w ctx).IsLoad)
      (hprocessed : (w'.elfCtx ctx).processed = (w.elfCtx ctx).processed ++ [elfPhdr w ctx])
      (himage : (w'.elfCtx ctx).tmpImage = (w.elfCtx ctx).tmpImage) (hregion : w'.region = w.region)
  /-- It allocates a segment. -/
  | segment (hload : (elfPhdr w ctx).IsLoad) (hrecord : w.kmallocRegions 0 ≠ null)
      (hprocessed : (w'.elfCtx ctx).processed = (w.elfCtx ctx).processed ++ [elfPhdr w ctx])
      (himage : (w'.elfCtx ctx).tmpImage = imageSegment (w.elfCtx ctx).tmpImage
        (loadEhdr w.mem (elfHeader ctx)) (elfPhdr w ctx) (w.kmallocRegions 0))
      (hregion : w'.region = Function.update w.region (w.kmallocRegions 0)
        ⟨w.uallocs 0, (elfPhdr w ctx).pMemsz, 1⟩)

variable {ctx : Ptr}

/-- Only the loader has written to its context. -/
theorem elfCtx_of_sameLoads {c : ElfCtx} (h : SameLoads (w.setElfCtx ctx c) w') :
    w'.elfCtx ctx = c ∧ w'.region = w.region := by
  rw [h.elfCtx, setElfCtx_elfCtx]
  exact ⟨rfl, h.region⟩

/-- On to the next header: the load waits for another read, or for its file to be closed. -/
theorem elfReadNextProgramHeader_same (d : FatDriver) (ctx : Ptr) (w : FsWorld) :
    ∃ c, SameLoads (w.setElfCtx ctx c) (elfReadNextProgramHeader d ctx w).1 ∧
      SameProcesses w (elfReadNextProgramHeader d ctx w).1 ∧
      c.processed = (w.elfCtx ctx).processed ∧ c.tmpImage = (w.elfCtx ctx).tmpImage ∧
      c.pcb = (w.elfCtx ctx).pcb := by
  rw [elfReadNextProgramHeader]
  dsimp only
  split
  · exact ⟨_, (fsReadSubmit_same ..).1, ⟨rfl, rfl⟩, rfl, rfl, rfl⟩
  · exact ⟨_, .refl, ⟨rfl, rfl⟩, rfl, rfl, rfl⟩

/-- **A step of the loader** ends the load or advances it, for the same process, whose block it leaves
alone. -/
theorem elfStep_advances (d : FatDriver) (ctx : Ptr) (status : Int) (w : FsWorld) :
    (elfStep d ctx status w).2 = .stop ∨ ElfAdvances ctx w (elfStep d ctx status w).1 ∧
      ((elfStep d ctx status w).1.elfCtx ctx).pcb = (w.elfCtx ctx).pcb ∧
      SameProcesses w (elfStep d ctx status w).1 := by
  -- a context that differs in neither the headers nor the image
  have hwait : ∀ (c : ElfCtx) (w' : FsWorld),
      SameLoads (w.setElfCtx ctx c) w' ∧ SameProcesses (w.setElfCtx ctx c) w' →
      c.processed = (w.elfCtx ctx).processed → c.tmpImage = (w.elfCtx ctx).tmpImage →
      c.pcb = (w.elfCtx ctx).pcb →
      ElfAdvances ctx w w' ∧ (w'.elfCtx ctx).pcb = (w.elfCtx ctx).pcb ∧ SameProcesses w w' := by
    intro c w' hsame hprocessed himage hpcb
    obtain ⟨hctx, hregion⟩ := elfCtx_of_sameLoads hsame.1
    rw [← hctx] at hprocessed himage hpcb
    exact ⟨.wait hprocessed himage hregion, hpcb, ⟨hsame.2.pcb, hsame.2.tfA0⟩⟩
  have hnext : ∀ c : ElfCtx, ∃ c', c'.processed = c.processed ∧ c'.tmpImage = c.tmpImage ∧
      c'.pcb = c.pcb ∧
      ((elfReadNextProgramHeader d ctx (w.setElfCtx ctx c)).1.elfCtx ctx = c' ∧
        (elfReadNextProgramHeader d ctx (w.setElfCtx ctx c)).1.region = w.region) ∧
      SameProcesses w (elfReadNextProgramHeader d ctx (w.setElfCtx ctx c)).1 := by
    intro c
    obtain ⟨c', hloads, hprocesses, hprocessed, himage, hpcb⟩ := elfReadNextProgramHeader_same d ctx
      (w.setElfCtx ctx c)
    rw [setElfCtx_elfCtx] at hprocessed himage hpcb
    obtain ⟨hctx, hregion⟩ := elfCtx_of_sameLoads hloads
    exact ⟨c', hprocessed, himage, hpcb, ⟨hctx, hregion⟩, ⟨hprocesses.pcb, hprocesses.tfA0⟩⟩
  by_cases hstatus : status ≠ 0
  · rw [elfStep, if_pos hstatus]
    exact Or.inl elfFinish_stop
  obtain rfl := not_not.1 hstatus
  cases hstate : (w.elfCtx ctx).state with
  | readPheader =>
    by_cases hload : (elfPhdr w ctx).IsLoad
    · rcases elfStep_segment (d := d) hstate rfl hload with ⟨heq, hrecord, -⟩ | ⟨w', c, heq, -, -⟩
      · -- the segment has its region, and its contents are sought
        obtain ⟨hloads, hprocesses⟩ := fsSeekWhence_same d (elfFile ctx) (elfPhdr w ctx).pOffset
          (some .set) .elfStep ctx (allocSegment ctx (elfPhdr w ctx) w)
        obtain ⟨hctx, hregion⟩ := elfCtx_of_sameLoads hloads
        rw [heq]
        refine Or.inr ⟨.segment hload hrecord ?_ ?_ hregion, ?_, ⟨hprocesses.pcb, hprocesses.tfA0⟩⟩
        · exact congrArg ElfCtx.processed hctx
        · exact congrArg ElfCtx.tmpImage hctx
        · exact (congrArg ElfCtx.pcb hctx).trans rfl
      · rw [heq]
        exact Or.inl elfFinish_stop
    · obtain ⟨c', hprocessed, himage, hpcb, ⟨rfl, hregion⟩, hprocesses⟩ := hnext { w.elfCtx ctx with
        processed := (w.elfCtx ctx).processed ++ [elfPhdr w ctx] }
      rw [elfStep_skip hstate rfl hload]
      exact Or.inr ⟨.skip hload hprocessed himage hregion, hpcb, hprocesses⟩
  | loadPcontent =>
    obtain ⟨c', hprocessed, himage, hpcb, ⟨rfl, hregion⟩, hprocesses⟩ := hnext { w.elfCtx ctx with
      segBuf := null }
    rw [elfStep_next hstate]
    exact Or.inr ⟨.wait hprocessed himage hregion, hpcb, hprocesses⟩
  | seekPcontent =>
    rw [elfStep_contents hstate]
    exact Or.inr (hwait _ _ (fsReadSubmit_same ..) rfl rfl rfl)
  | opening =>
    rw [elfStep, if_neg hstatus]
    simp only [hstate]
    exact Or.inr (hwait _ _ (fsReadSubmit_same ..) rfl rfl rfl)
  | readingHeader =>
    rw [elfStep, if_neg hstatus]
    simp only [hstate]
    split
    · exact Or.inl elfFinish_stop
    · exact Or.inr (hwait _ _ (fsSeekWhence_same ..) rfl rfl rfl)
  | loadPheader =>
    rw [elfStep, if_neg hstatus]
    simp only [hstate]
    exact Or.inr (hwait _ _ (fsReadSubmit_same ..) rfl rfl rfl)
  | closing =>
    rw [elfStep, if_neg hstatus]
    simp only [hstate]
    exact Or.inl elfFinish_stop
  | done | error =>
    rw [elfStep, if_neg hstatus]
    simp only [hstate]
    exact Or.inl trivial

/-! ## Loads with `ualloc` at hand -/

namespace LoadSys

/-- The world that a callback sees differs in what `ualloc` will hand out only. -/
theorem stocked_same (k : FsClosure) (status : Int) (c : LoadSys) :
    SameLoads c.world (c.stocked k status) ∧ SameProcesses c.world (c.stocked k status) := by
  rw [LoadSys.stocked]
  split
  · exact ⟨⟨rfl, rfl⟩, ⟨rfl, rfl⟩⟩
  · exact ⟨.refl, .refl⟩

end LoadSys

end Operations

end RiscyOS
