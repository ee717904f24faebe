import RiscyOS.Arch.Mmu
import RiscyOS.Fs.ElfComplete

/-!
# The stack and the heap of a loaded process

A data segment of `p_memsz` bytes at `p_vaddr` gets a region of that size, which the data MMU maps at
`p_vaddr`.  The heap is to begin after the segment, at its end rounded up to 16, and the stack above
the heap, at the upper end of the region: the linker script leaves 8 KiB for the two.  But these are
not part of the segment, so the region ends where the heap begins; and the stack pointer that
`elf_finish` stores is the start of the data plus the size of the *text*.

`elf_stack_iff` says for which pairs of segments this comes out right.  The sizes come from the
records of the regions, which are written when the segments are allocated: that they are still those
of the headers at the end of the load is `SizedOf`, carried along the run.
-/

set_option autoImplicit false

namespace RiscyOS

open Memory Callback Bitmap

/-! ## Addresses -/

section Addresses

variable (region : Ptr → MemoryRegion) (pcb : Pcb)

/-- The data MMU, programmed for the process, sends a user access to `x` to its data region. -/
def TranslatesInside (x : Word) : Prop :=
  ∀ (r : MmuRegs) (a : Access), r.mmuEnable = true → a.IsUserData → a.address = x →
    (((mmuSetProc region pcb r).dmmu a).physAddress -
      (region pcb.pdataMemoryRegion).physicalBase).toNat < dataSize region pcb

/-- **The process has a usable stack and heap.** -/
structure StackUsable : Prop where
  start_le : pcb.pdataStart.toNat ≤ pcb.heapStart.toNat
  heap_le : pcb.heapStart.toNat ≤ pcb.mscratch.toNat
  stack_le : pcb.mscratch.toNat ≤ pcb.pdataStart.toNat + dataSize region pcb
  /-- The first word pushed is in the data region. -/
  push : ∀ i < 4, TranslatesInside region pcb (pcb.mscratch - 4 + BitVec.ofNat 32 i)
  /-- So is every byte of the heap below the stack pointer. -/
  heap : ∀ x : Word, pcb.heapStart.toNat ≤ x.toNat → x.toNat < pcb.mscratch.toNat →
    TranslatesInside region pcb x

variable {region pcb}

/-- The offset in the region is that from the start of the data. -/
theorem translatesInside_iff {x : Word} :
    TranslatesInside region pcb x ↔ (x - pcb.pdataStart).toNat < dataSize region pcb := by
  have hoffset : ∀ (r : MmuRegs) (a : Access), r.mmuEnable = true → a.IsUserData →
      ((mmuSetProc region pcb r).dmmu a).physAddress - (region pcb.pdataMemoryRegion).physicalBase =
        a.address - pcb.pdataStart := by
    intro r a hen ha
    have hen' : (mmuSetProc region pcb r).mmuEnable = true := by
      rw [mmuSetProc_eq]
      exact hen
    rw [dmmu_physAddress hen' ha, mmuSetProc_eq, BitVec.add_sub_cancel]
  constructor
  · intro h
    have hx := h { MmuRegs.reset with mmuEnable := true } ⟨x, 0, 0, true, false⟩ rfl
      ⟨rfl, rfl⟩ rfl
    rwa [hoffset _ _ rfl ⟨rfl, rfl⟩] at hx
  · rintro h r a hen ha rfl
    rwa [hoffset r a hen ha]

/-- **When it has**, for a process whose data starts at `v` and whose heap starts where the segment of
`n` bytes there ends, rounded up: its stack starts `n` bytes above the data, these are a word or more,
and they end at a multiple of 16. -/
theorem stackUsable_iff {v n : Word} (hstart : pcb.pdataStart = v)
    (hheap : pcb.heapStart.toNat = (v.toNat + n.toNat + 15) / 16 * 16)
    (hsize : dataSize region pcb = n.toNat) (hend : v.toNat + n.toNat + 15 < 2 ^ 32) :
    StackUsable region pcb ↔
      pcb.mscratch.toNat = v.toNat + n.toNat ∧ 16 ∣ v.toNat + n.toNat ∧ 4 ≤ n.toNat := by
  constructor
  · intro h
    have hle := h.heap_le
    have hstack := h.stack_le
    have hpush := translatesInside_iff.1 (h.push 0 (by decide))
    rw [hheap] at hle
    rw [hstart, hsize] at hstack hpush
    have htop : pcb.mscratch.toNat = v.toNat + n.toNat := by omega
    refine ⟨htop, by omega, ?_⟩
    bv_omega
  · rintro ⟨htop, hdvd, hword⟩
    refine ⟨?_, ?_, ?_, fun i hi => translatesInside_iff.2 ?_, fun x hle hlt =>
      translatesInside_iff.2 ?_⟩
    · rw [hstart, hheap]
      omega
    · rw [hheap, htop]
      omega
    · rw [hstart, hsize, htop]
    · rw [hstart, hsize]
      bv_omega
    · rw [hheap] at hle
      rw [hstart, hsize]
      bv_omega

end Addresses

/-! ## The sizes of the regions -/

/-- The regions of an image are as large as their headers say. -/
structure SizedOf (w : FsWorld) (c : ElfCtx) : Prop where
  text : ∀ ph, textHeader c.processed = some ph →
    (w.region c.tmpImage.ptextMemoryRegion).regionSize = ph.pMemsz
  data : ∀ ph, dataHeader c.processed = some ph →
    (w.region c.tmpImage.pdataMemoryRegion).regionSize = ph.pMemsz

section Sizes

variable {d : FatDriver} {ctx : Ptr} {w w' : FsWorld} {status : Int}

/-- The regions of an image with headers of both kinds. -/
theorem ImageOf.mem_regions {c : ElfCtx} (h : ImageOf c) :
    (∀ ph, textHeader c.processed = some ph → c.tmpImage.ptextMemoryRegion ∈ c.tmpImage.regions) ∧
      ∀ ph, dataHeader c.processed = some ph → c.tmpImage.pdataMemoryRegion ∈ c.tmpImage.regions := by
  refine ⟨fun ph hph => ?_, fun ph hph => ?_⟩
  · have hne : c.tmpImage.ptextMemoryRegion ≠ null := fun hnull => by
      rw [h.text.1 hnull] at hph
      cases hph
    exact List.mem_filter.2 ⟨List.mem_cons_self, decide_eq_true hne⟩
  · have hne : c.tmpImage.pdataMemoryRegion ≠ null := fun hnull => by
      rw [h.data.1 hnull] at hph
      cases hph
    exact List.mem_filter.2 ⟨List.mem_cons_of_mem _ List.mem_cons_self, decide_eq_true hne⟩

/-- The sizes depend on the records of the image only. -/
theorem SizedOf.congr {c : ElfCtx} (h : SizedOf w c) (himage : ImageOf c)
    (hregion : ∀ p ∈ c.tmpImage.regions, w'.region p = w.region p) : SizedOf w' c := by
  refine ⟨fun ph hph => ?_, fun ph hph => ?_⟩
  · rw [hregion _ (himage.mem_regions.1 ph hph)]
    exact h.text ph hph
  · rw [hregion _ (himage.mem_regions.2 ph hph)]
    exact h.data ph hph

/-- **A step of the loader** allocates a record that no segment has, and puts the size there. -/
theorem SizedOf.advances (h : SizedOf w (w.elfCtx ctx)) (himage : ImageOf (w.elfCtx ctx))
    (hfresh : w.kmallocRegions 0 ≠ null → w.kmallocRegions 0 ∉ (w.elfCtx ctx).tmpImage.regions)
    (hstep : ElfAdvances ctx w w') : SizedOf w' (w'.elfCtx ctx) := by
  cases hstep with
  | wait hprocessed himage' hregion =>
    refine ⟨?_, ?_⟩ <;> rw [hprocessed, himage', hregion]
    · exact h.text
    · exact h.data
  | skip hload hprocessed himage' hregion =>
    refine ⟨?_, ?_⟩ <;> rw [hprocessed, himage', hregion]
    · rw [textHeader_append, if_neg fun hc => hload hc.1]
      exact h.text
    · rw [dataHeader_append, if_neg fun hc => hload hc.1]
      exact h.data
  | segment hload hrecord hprocessed himage' hregion =>
    -- the segments there were have kept their records
    have hkept : SizedOf w' (w.elfCtx ctx) := h.congr himage fun p hp => by
      rw [hregion, Function.update_of_ne]
      rintro rfl
      exact hfresh hrecord hp
    by_cases htext : (elfPhdr w ctx).IsText
    · rw [imageSegment_of_isText htext] at himage'
      refine ⟨?_, ?_⟩ <;> rw [hprocessed, himage']
      · rw [textHeader_append, if_pos ⟨hload, htext⟩]
        rintro ph ⟨⟩
        rw [hregion, Function.update_self]
      · rw [dataHeader_append, if_neg fun hc => hc.2 htext]
        exact hkept.data
    · rw [imageSegment_of_not_isText htext] at himage'
      refine ⟨?_, ?_⟩ <;> rw [hprocessed, himage']
      · rw [textHeader_append, if_neg fun hc => htext hc.2]
        exact hkept.text
      · rw [dataHeader_append, if_pos ⟨hload, htext⟩]
        rintro ph ⟨⟩
        rw [hregion, Function.update_self]

variable {c : LoadBooks}

/-- **In every state of a load** that goes on, the image is that of the headers processed, and its
regions are of their sizes. -/
theorem BooksReach.sizedOf (h : BooksReach d ctx c) :
    c.action ≠ .stop → ImageOf (c.world.elfCtx ctx) ∧ SizedOf c.world (c.world.elfCtx ctx) := by
  induction h with
  | @submit path pcb rx w m L hctx _ _ _ _ =>
    intro _
    have hsame := (elfLoadSubmit_same d path pcb w).1
    rw [show w.kmalloc.1 = ctx from hctx] at hsame
    change ImageOf ((elfLoadSubmit d path pcb w).1.elfCtx ctx) ∧
      SizedOf (elfLoadSubmit d path pcb w).1 ((elfLoadSubmit d path pcb w).1.elfCtx ctx)
    rw [hsame]
    exact ⟨.empty rfl rfl, ⟨nofun, nofun⟩⟩
  | @others c b k w m L e _ hpost hw ho ih =>
    intro _
    obtain ⟨himage, hsized⟩ := ih (by rw [hpost]; nofun)
    have hsame : w.elfCtx ctx = c.world.elfCtx ctx := hw.loader
    dsimp only
    rw [hsame]
    exact ⟨himage, hsized.congr himage fun p hp => ho.regions p (List.mem_append_left _ hp)⟩
  | complete _ _ _ hpost ih => exact fun _ => ih (by rw [hpost]; nofun)
  | @run c k status hc hcall hs ih =>
    intro hgo
    obtain ⟨himage, hsized⟩ := ih (by rw [hcall]; nofun)
    obtain ⟨-, hcarries⟩ := hc.inv (by rw [hcall]; nofun)
    rw [hcall] at hcarries
    obtain ⟨hworld, haction⟩ := LoadBooks.run_code d k status c
    have hsame := (LoadSys.stocked_same k status c.toLoadSys).1
    rw [← hsame.elfCtx] at himage hsized
    have hsized' : SizedOf (c.stocked k status) ((c.stocked k status).elfCtx ctx) :=
      hsized.congr himage fun p _ => by rw [hsame.region]
    rw [haction] at hgo
    rw [hworld]
    refine ⟨himage.fsCode hgo, ?_⟩
    by_cases hk : k.1 = .elfStep
    · obtain ⟨cb, p⟩ := k
      obtain rfl : cb = .elfStep := hk
      obtain rfl : p = ctx := hcarries.works
      refine hsized'.advances himage (fun hrecord hp => ?_)
        ((elfStep_advances d p status _).resolve_left hgo).1
      -- what is in the image is in use
      rw [hsame.elfCtx] at hp
      have hrest : (.region, (c.stocked (.elfStep, p) status).kmallocRegions 0) ∈ c.rest p :=
        List.mem_cons_of_mem _ (List.mem_append_left _ (List.mem_map_of_mem
          (List.mem_append_left _ hp)))
      exact LoadBooks.ne_fresh_region hcarries hs hrecord hrest rfl
    · have hloads := @fsCode_sameLoads d c.rx (c.stocked k status) status k hk
      rw [hloads.elfCtx]
      exact hsized'.congr himage fun p _ => by rw [hloads.region]

/-- The stack pointer of a process whose image is loaded. -/
theorem elfFinish_mscratch (hstate : (w.elfCtx ctx).state = .done) :
    ((elfFinish ctx w).1.pcb (w.elfCtx ctx).pcb).mscratch = (w.elfCtx ctx).tmpImage.pdataStart +
      (w.region (w.elfCtx ctx).tmpImage.ptextMemoryRegion).regionSize := by
  rw [elfFinish]
  simp only [hstate, reduceCtorEq, if_false, unblockProcess, Function.update_self,
    (releaseMemorySegment_spec _ _).2.2.1]

/-- **The process block after a load that is done**, by the headers of its segments. -/
theorem elfStep_done {text data : ElfPhdr} (himage : ImageOf (w.elfCtx ctx))
    (hsized : SizedOf w (w.elfCtx ctx)) (hdone : elfFinishState ctx status w = some .done)
    (htext : textHeader (w.elfCtx ctx).processed = some text)
    (hdata : dataHeader (w.elfCtx ctx).processed = some data) :
    let w' := (elfStep d ctx status w).1
    let pcb := w'.pcb (w.elfCtx ctx).pcb
    pcb.pdataStart = data.pVaddr ∧ pcb.heapStart = data.heapStart ∧
      dataSize w'.region pcb = data.pMemsz.toNat ∧ pcb.mscratch = data.pVaddr + text.pMemsz := by
  obtain ⟨w₁, heq, hstate, hkeeps, -⟩ := elfStep_of_finish (d := d) hdone
  obtain ⟨-, -, -, hregion, -, hpdata, -, hstart, hheap⟩ := elfFinish_done hstate hkeeps.image rfl
  have hscratch := elfFinish_mscratch hstate
  obtain ⟨hstart', hheap'⟩ := himage.layout data hdata
  dsimp only
  rw [heq, ← hkeeps.target]
  refine ⟨hstart.trans hstart', hheap.trans hheap', ?_, ?_⟩
  · rw [dataSize, hpdata, (hregion _).2, hkeeps.region, hsized.data data hdata]
  · rw [hscratch, hkeeps.image, hkeeps.region, hstart', hsized.text text htext]

end Sizes

/-- Where the heap starts, in numbers. -/
theorem ElfPhdr.heapStart_toNat {ph : ElfPhdr}
    (h : ph.pVaddr.toNat + ph.pMemsz.toNat + 15 < 2 ^ 32) :
    ph.heapStart.toNat = (ph.pVaddr.toNat + ph.pMemsz.toNat + 15) / 16 * 16 := by
  have hsum : (ph.pVaddr + ph.pMemsz + 15).toNat = ph.pVaddr.toNat + ph.pMemsz.toNat + 15 := by bv_omega
  rw [ElfPhdr.heapStart, ← hsum]
  exact toNat_and_not_mask _ 4

/-- **A loaded process has a usable stack and heap** if and only if its text is as large as its data, and
its data is at least a word and ends at a multiple of 16.  This holds at the end of every load that is
done, whatever the sectors hold and whatever else has happened in between, for every pair of segments of
which the data ends, rounded up, in the address space. -/
theorem elf_stack_iff (d : FatDriver) (ctx : Ptr) (c : LoadBooks) (k : FsClosure) (status : Int)
    (text data : ElfPhdr) (h : BooksReach d ctx c) (hcall : c.action = .call k status)
    (hdone : c.finishState k status = some .done)
    (htext : textHeader (c.world.elfCtx ctx).processed = some text)
    (hdata : dataHeader (c.world.elfCtx ctx).processed = some data)
    (hvalid : data.pVaddr.toNat + data.pMemsz.toNat + 15 < 2 ^ 32) :
    StackUsable (c.run d k status).world.region
        ((c.run d k status).world.pcb (c.world.elfCtx ctx).pcb) ↔
      text.pMemsz = data.pMemsz ∧ 16 ∣ data.pVaddr.toNat + data.pMemsz.toNat ∧
        4 ≤ data.pMemsz.toNat := by
  obtain ⟨-, hcarries⟩ := h.inv (by rw [hcall]; nofun)
  obtain ⟨himage, hsized⟩ := h.sizedOf (by rw [hcall]; nofun)
  rw [hcall] at hcarries
  obtain ⟨rfl, hends⟩ := LoadBooks.loader_of_finishes hcarries.works hdone
  have hsame := (LoadSys.stocked_same (.elfStep, ctx) status c.toLoadSys).1
  have hsized' : SizedOf (c.stocked (.elfStep, ctx) status) (c.world.elfCtx ctx) :=
    hsized.congr himage fun q _ => by rw [hsame.region]
  rw [← hsame.elfCtx] at himage hsized' htext hdata
  obtain ⟨hstart, hheap, hsize, hscratch⟩ := elfStep_done (d := d) himage hsized' hends htext hdata
  rw [← hsame.elfCtx, (LoadBooks.run_code d _ status c).1]
  refine (stackUsable_iff hstart ?_ hsize hvalid).trans (and_congr_left fun _ => ?_)
  · rw [hheap]
    exact ElfPhdr.heapStart_toNat hvalid
  · rw [hscratch]
    bv_omega

/-- A card with an executable of two segments of 96 bytes. -/
def evenDisk : Word → Sector :=
  elfDisk ⟨1, 0, 0x10000, 0, 84, 96, 5, 4⟩ ⟨1, 116, 0x20000, 0, 4, 96, 6, 4⟩ [1, 2, 3, 4]

/-- Its process has a usable stack: the heap starts, and the stack ends, at `0x20060`. -/
theorem elf_stack_even :
    let c := booksAfter evenDisk 22 21
    let k : FsClosure := (.elfStep, 0x1000)
    c.action = .call k 0 ∧
      StackUsable (c.run smallDriver k 0).world.region
        ((c.run smallDriver k 0).world.pcb (c.world.elfCtx 0x1000).pcb) := by
  have hsupplied : ∀ i < 21, (booksAfter evenDisk 22 i).nextSupplied 0x1000 = true := by
    decide +kernel
  have hcall : (booksAfter evenDisk 22 21).action = .call (.elfStep, 0x1000) 0 := by decide +kernel
  have hdone : (booksAfter evenDisk 22 21).finishState (.elfStep, 0x1000) 0 = some .done := by
    decide +kernel
  have htext : textHeader ((booksAfter evenDisk 22 21).world.elfCtx 0x1000).processed =
      some ⟨1, 0, 0x10000, 0, 84, 96, 5, 4⟩ := by decide +kernel
  have hdata : dataHeader ((booksAfter evenDisk 22 21).world.elfCtx 0x1000).processed =
      some ⟨1, 116, 0x20000, 0, 4, 96, 6, 4⟩ := by decide +kernel
  exact ⟨hcall, (elf_stack_iff smallDriver 0x1000 _ _ _ _ _ (booksAfter_reach hsupplied) hcall hdone
    htext hdata (by decide)).2 ⟨rfl, by decide, by decide⟩⟩

/-- With a text of 84 bytes and data of 8, the stack pointer is 76 bytes beyond the data region. -/
theorem elf_stack_outside :
    ¬ ∀ (d : FatDriver) (ctx : Ptr) (c : LoadBooks) (k : FsClosure) (status : Int)
        (text data : ElfPhdr), BooksReach d ctx c → c.action = .call k status →
      c.finishState k status = some .done →
      textHeader (c.world.elfCtx ctx).processed = some text →
      dataHeader (c.world.elfCtx ctx).processed = some data →
      data.pVaddr.toNat + data.pMemsz.toNat + 15 < 2 ^ 32 →
      StackUsable (c.run d k status).world.region
        ((c.run d k status).world.pcb (c.world.elfCtx ctx).pcb) := by
  intro h
  obtain ⟨hsupplied, hcall, hdone⟩ := booksAfter_overlapping
  have hreach : BooksReach smallDriver 0x1000 (booksAfter overlappingElf.disk 22 21) :=
    booksAfter_reach fun i hi => hsupplied i (by omega)
  have htext : textHeader ((booksAfter overlappingElf.disk 22 21).world.elfCtx 0x1000).processed =
      some ⟨1, 0, 0x10000, 0, 84, 84, 5, 4⟩ := by decide +kernel
  have hdata : dataHeader ((booksAfter overlappingElf.disk 22 21).world.elfCtx 0x1000).processed =
      some ⟨1, 116, 0x20000, 0, 4, 8, 6, 4⟩ := by decide +kernel
  have hpcb : ((booksAfter overlappingElf.disk 22 21).world.elfCtx 0x1000).pcb = 0x700 := by
    decide +kernel
  have hbeyond : ¬ (((booksAfter overlappingElf.disk 22 21).run smallDriver (.elfStep, 0x1000)
      0).world.pcb 0x700).mscratch.toNat ≤
      (((booksAfter overlappingElf.disk 22 21).run smallDriver (.elfStep, 0x1000) 0).world.pcb
        0x700).pdataStart.toNat +
      dataSize ((booksAfter overlappingElf.disk 22 21).run smallDriver (.elfStep, 0x1000) 0).world.region
        (((booksAfter overlappingElf.disk 22 21).run smallDriver (.elfStep, 0x1000) 0).world.pcb 0x700) := by
    decide +kernel
  have husable := h _ _ _ _ _ _ _ hreach hcall hdone htext hdata (by decide)
  rw [hpcb] at husable
  exact hbeyond husable.stack_le

end RiscyOS
