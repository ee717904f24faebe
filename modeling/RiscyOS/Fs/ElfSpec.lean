import RiscyOS.Fs.ElfImage

/-!
# When a program is loaded

The loader reads one program header after another and, for each segment, its contents in between.
Its invariant (`LoaderState`) says what it has done with the first headers of the table, and
`AtHeader` that the next one has just been read.  One header is dealt with in `elfStep_skip` or
`elfStep_load`, according to its type, and the table by induction on what is left of it.

The step that is missing in the source shows up as the hypothesis `Executable.InStep`: after a
header has been dealt with, the next is read from wherever the file is then.
-/

set_option autoImplicit false

namespace RiscyOS

open Memory Callback

namespace Executable

variable (x : Executable)

/-- How many segments come before header `i`. -/
def rank (i : Nat) : Nat := (if x.text < i then 1 else 0) + if x.data < i then 1 else 0

theorem text_ne_data : x.text ≠ x.data := by
  intro h
  refine x.not_isText ?_
  rw [← h]
  exact x.isText

theorem rank_succ_of_load {i : Nat} (h : i = x.text ∨ i = x.data) : x.rank (i + 1) = x.rank i + 1 := by
  have hne := x.text_ne_data
  rw [rank, rank]
  rcases h with rfl | rfl
  · by_cases hlt : x.data < x.text
    · rw [if_pos (by omega), if_pos (by omega), if_neg (by omega), if_pos hlt]
    · rw [if_pos (by omega), if_neg (by omega), if_neg (by omega), if_neg hlt]
  · by_cases hlt : x.text < x.data
    · rw [if_pos (by omega), if_pos (by omega), if_pos hlt, if_neg (by omega)]
    · rw [if_neg (by omega), if_pos (by omega), if_neg hlt, if_neg (by omega)]

theorem rank_succ_of_skip {i : Nat} (h : ¬ (i = x.text ∨ i = x.data)) : x.rank (i + 1) = x.rank i := by
  have hiff : ∀ j, ¬ i = j → (j < i + 1 ↔ j < i) := fun j hj => by omega
  rw [not_or] at h
  simp only [rank, hiff _ h.1, hiff _ h.2]

end Executable

theorem Executable.num_pos (x : Executable) : 0 < x.num := Nat.lt_of_le_of_lt (Nat.zero_le _) x.text_lt

/-- A header of the table is in the file. -/
theorem Executable.phOffset_le (x : Executable) {i : Nat} (hi : i < x.num) :
    x.phOffset i + 32 ≤ x.size.toNat := by
  have htable := x.table_le
  rw [Volume.phdrOffset, show x.phnum x.clusters = x.num from rfl] at htable
  rw [phOffset, Volume.phdrOffset]
  omega

/-! ## What the loader has done -/

section Loader

variable (x : Executable) (ctx pcb : Ptr) (mems regions : Nat → Ptr)

/-- What the loader relies on the allocators for, when they have memory: the two regions have
records of their own, and their memory overlaps neither the other's nor the headers in the context,
and is less than half of the address space. -/
structure AllocsApart : Prop where
  record : regions (x.rank x.text) ≠ null → regions (x.rank x.text) ≠ regions (x.rank x.data)
  memory : mems (x.rank x.text) ≠ null → mems (x.rank x.data) ≠ null →
    ∀ a, (a - mems (x.rank x.text)).toNat < (x.ph x.text).pMemsz.toNat →
      (x.ph x.data).pMemsz.toNat ≤ (a - mems (x.rank x.data)).toNat
  headers : ∀ i, i = x.text ∨ i = x.data → mems (x.rank i) ≠ null →
    ∀ a, (a - elfHeader ctx).toNat < 84 → (x.ph i).pMemsz.toNat ≤ (a - mems (x.rank i)).toNat
  small : ∀ i, i = x.text ∨ i = x.data → mems (x.rank i) ≠ null → (x.ph i).pMemsz.toNat < 2 ^ 31

/-- **The loader has dealt with the headers before `k`**, except that only the segments before `j`
have their contents. -/
structure LoaderState (k j : Nat) (w : FsWorld) : Prop where
  fileOn : FileOn x.toVolume x.clusters (w.file (elfFile ctx))
  size : (w.file (elfFile ctx)).fileSize = x.size
  ehdr : loadEhdr w.mem (elfHeader ctx) = x.ehdr x.clusters
  processed : (w.elfCtx ctx).processed = (List.range k).map x.ph
  pcb : (w.elfCtx ctx).pcb = pcb
  text : x.text < k → (w.elfCtx ctx).tmpImage.ptextMemoryRegion = regions (x.rank x.text) ∧
    (w.elfCtx ctx).tmpImage.mepc = (x.ehdr x.clusters).eEntry
  data : x.data < k → (w.elfCtx ctx).tmpImage.pdataMemoryRegion = regions (x.rank x.data) ∧
    (w.elfCtx ctx).tmpImage.pdataStart = (x.ph x.data).pVaddr ∧
    (w.elfCtx ctx).tmpImage.heapStart = (x.ph x.data).heapStart
  region : ∀ i, i = x.text ∨ i = x.data → i < k → mems (x.rank i) ≠ null ∧
    regions (x.rank i) ≠ null ∧
    w.region (regions (x.rank i)) = ⟨mems (x.rank i), (x.ph i).pMemsz, 1⟩
  loaded : ∀ i, i = x.text ∨ i = x.data → i < j →
    x.SegmentIn i ⟨mems (x.rank i), (x.ph i).pMemsz, 1⟩ w.mem
  uallocs : ∀ n, w.uallocs n = mems (n + x.rank k)
  kmallocRegions : ∀ n, w.kmallocRegions n = regions (n + x.rank k)

/-- Header `i` has been read. -/
structure AtHeader (i : Nat) (w : FsWorld) : Prop extends LoaderState x ctx pcb mems regions i i w where
  state : (w.elfCtx ctx).state = .readPheader
  currentSeg : (w.elfCtx ctx).currentSeg = BitVec.ofNat 32 i
  phdr : loadPhdr w.mem (elfPheader ctx) = x.ph i
  cursor : ∃ s, CursorAt x.toVolume x.clusters (w.file (elfFile ctx)) s (x.phOffset i + 32) ∧
    s / 512 = (x.phOffset i + 31) / 512

/-- The memory of segment `i` is there, and its contents have been sought. -/
structure AtContents (i : Nat) (w : FsWorld) : Prop
    extends LoaderState x ctx pcb mems regions (i + 1) i w where
  state : (w.elfCtx ctx).state = .seekPcontent
  currentSeg : (w.elfCtx ctx).currentSeg = BitVec.ofNat 32 i
  segBuf : (w.elfCtx ctx).segBuf = mems (x.rank i)
  phdr : loadPhdr w.mem (elfPheader ctx) = x.ph i
  zero : ∀ a, (a - mems (x.rank i)).toNat < (x.ph i).pMemsz.toNat → w.mem a = 0
  cursor : CursorAt x.toVolume x.clusters (w.file (elfFile ctx)) (x.ph i).pOffset.toNat
    (x.ph i).pOffset.toNat

/-- The load ends, in an error or with the executable loaded. -/
def Outcome (c : Config Sector FsWorld Word FsClosure) : Prop :=
  ∃ rx w, Reaches (fsCode x.toFatDriver) x.disk c ⟨rx, w, .stop⟩ ∧
    ((w.elfCtx ctx).state = .error ∨ x.Loaded ctx pcb w)

variable {x ctx pcb mems regions} {k j : Nat} {w w' : FsWorld} {rx : Sector}

theorem Outcome.of_reaches {c c' : Config Sector FsWorld Word FsClosure}
    (h : Reaches (fsCode x.toFatDriver) x.disk c c') (h' : Outcome x ctx pcb c') :
    Outcome x ctx pcb c := by
  obtain ⟨rx, w, hreach, hend⟩ := h'
  exact ⟨rx, w, h.trans hreach, hend⟩

theorem Outcome.of_elfStep
    (h : Outcome x ctx pcb ⟨rx, (elfStep x.toFatDriver ctx 0 w).1, (elfStep x.toFatDriver ctx 0 w).2⟩) :
    Outcome x ctx pcb ⟨rx, w, .call (.elfStep, ctx) 0⟩ :=
  .of_reaches (.single rfl) h

/-- What a segment's bytes say of the memory. -/
theorem Executable.SegmentIn.congr {i : Nat} {r r' : MemoryRegion} {m m' : Mem}
    (h : x.SegmentIn i r m) (hbase : r'.physicalBase = r.physicalBase)
    (hsize : r'.regionSize = r.regionSize) (hfit : (x.ph i).pFilesz.toNat ≤ (x.ph i).pMemsz.toNat)
    (hmem : ∀ a, (a - r.physicalBase).toNat < (x.ph i).pMemsz.toNat → m' a = m a) :
    x.SegmentIn i r' m' := by
  have hlt := (x.ph i).pMemsz.isLt
  have hin : ∀ n < (x.ph i).pMemsz.toNat, m' (r.physicalBase + BitVec.ofNat 32 n) =
      m (r.physicalBase + BitVec.ofNat 32 n) := by
    intro n hn
    refine hmem _ ?_
    rw [add_ofNat_sub _ (by omega)]
    exact hn
  refine ⟨hsize.trans h.size, fun n hn => ?_, fun n hn hn' => ?_⟩
  · rw [hbase, hin n (by omega)]
    exact h.contents n hn
  · rw [hbase, hin n hn']
    exact h.zeros n hn hn'

/-- **What the loader has done stays done** while the file system reads and seeks on its behalf. -/
theorem LoaderState.untouched {buffer : Ptr} {n : Nat} (h : LoaderState x ctx pcb mems regions k j w)
    (hw : Untouched buffer n w w') (hfile : FileOn x.toVolume x.clusters (w'.file (elfFile ctx)))
    (hsize : (w'.file (elfFile ctx)).fileSize = (w.file (elfFile ctx)).fileSize)
    (hhdr : ∀ a, (a - elfHeader ctx).toNat < 52 → n ≤ (a - buffer).toNat)
    (hseg : ∀ i, i = x.text ∨ i = x.data → i < j → ∀ a,
      (a - mems (x.rank i)).toNat < (x.ph i).pMemsz.toNat → n ≤ (a - buffer).toNat) :
    LoaderState x ctx pcb mems regions k j w' := by
  have hctx : w'.elfCtx ctx = w.elfCtx ctx := congrFun hw.elfCtx ctx
  refine ⟨hfile, hsize.trans h.size, ?_, ?_, ?_, ?_, ?_, fun i hi hk => ?_, fun i hi hj => ?_, ?_, ?_⟩
  · rw [← h.ehdr]
    exact loadEhdr_congr fun a ha => hw.mem a (hhdr a ha)
  · rw [hctx]
    exact h.processed
  · rw [hctx]
    exact h.pcb
  · rw [hctx]
    exact h.text
  · rw [hctx]
    exact h.data
  · rw [hw.region]
    exact h.region i hi hk
  · exact (h.loaded i hi hj).congr rfl rfl (x.segment hi).2.2 fun a ha => hw.mem a (hseg i hi hj a ha)
  · rw [hw.uallocs]
    exact h.uallocs
  · rw [hw.kmallocRegions]
    exact h.kmallocRegions

/-- The other fields of the context do not matter. -/
theorem LoaderState.setElfCtx {c : ElfCtx} (h : LoaderState x ctx pcb mems regions k j w)
    (hprocessed : c.processed = (w.elfCtx ctx).processed) (hpcb : c.pcb = (w.elfCtx ctx).pcb)
    (himage : c.tmpImage = (w.elfCtx ctx).tmpImage) :
    LoaderState x ctx pcb mems regions k j (w.setElfCtx ctx c) := by
  refine ⟨h.fileOn, h.size, h.ehdr, ?_, ?_, fun ht => ?_, fun hd => ?_, h.region, h.loaded, h.uallocs,
    h.kmallocRegions⟩
  · rw [setElfCtx_elfCtx, hprocessed, h.processed]
  · rw [setElfCtx_elfCtx, hpcb, h.pcb]
  · rw [setElfCtx_elfCtx, himage]
    exact h.text ht
  · rw [setElfCtx_elfCtx, himage]
    exact h.data hd

/-! ## The end -/

/-- Releasing a region changes nothing but its count of users. -/
theorem releaseMemorySegment_spec (p : Ptr) (w : FsWorld) :
    (releaseMemorySegment p w).mem = w.mem ∧ (releaseMemorySegment p w).elfCtx = w.elfCtx ∧
      (releaseMemorySegment p w).pcb = w.pcb ∧ ∀ q,
        ((releaseMemorySegment p w).region q).physicalBase = (w.region q).physicalBase ∧
        ((releaseMemorySegment p w).region q).regionSize = (w.region q).regionSize := by
  rw [releaseMemorySegment]
  split
  · exact ⟨rfl, rfl, rfl, fun _ => ⟨rfl, rfl⟩⟩
  · dsimp only
    split
    · exact ⟨rfl, rfl, rfl, fun _ => ⟨rfl, rfl⟩⟩
    · refine ⟨rfl, rfl, rfl, fun q => ?_⟩
      dsimp only
      by_cases hq : q = p
      · rw [hq, Function.update_self]
        exact ⟨rfl, rfl⟩
      · rw [Function.update_of_ne hq]
        exact ⟨rfl, rfl⟩

/-- What `elf_finish` leaves for a load that is done. -/
theorem elfFinish_done {image : ProcessImage} (hstate : (w.elfCtx ctx).state = .done)
    (himage : (w.elfCtx ctx).tmpImage = image) (hpcb : (w.elfCtx ctx).pcb = pcb) :
    (elfFinish ctx w).2 = .stop ∧ (elfFinish ctx w).1.elfCtx = w.elfCtx ∧
      (elfFinish ctx w).1.mem = w.mem ∧
      (∀ q, ((elfFinish ctx w).1.region q).physicalBase = (w.region q).physicalBase ∧
        ((elfFinish ctx w).1.region q).regionSize = (w.region q).regionSize) ∧
      ((elfFinish ctx w).1.pcb pcb).ptextMemoryRegion = image.ptextMemoryRegion ∧
      ((elfFinish ctx w).1.pcb pcb).pdataMemoryRegion = image.pdataMemoryRegion ∧
      ((elfFinish ctx w).1.pcb pcb).mepc = image.mepc ∧
      ((elfFinish ctx w).1.pcb pcb).pdataStart = image.pdataStart ∧
      ((elfFinish ctx w).1.pcb pcb).heapStart = image.heapStart := by
  rw [elfFinish]
  simp only [hstate, himage, hpcb, reduceCtorEq, if_false, unblockProcess]
  refine ⟨trivial, ?_, ?_, fun q => ?_, ?_, ?_, ?_, ?_, ?_⟩
  · rw [(releaseMemorySegment_spec _ _).2.1, (releaseMemorySegment_spec _ _).2.1]
  · rw [(releaseMemorySegment_spec _ _).1, (releaseMemorySegment_spec _ _).1]
  · rw [((releaseMemorySegment_spec _ _).2.2.2 q).1, ((releaseMemorySegment_spec _ _).2.2.2 q).1,
      ((releaseMemorySegment_spec _ _).2.2.2 q).2, ((releaseMemorySegment_spec _ _).2.2.2 q).2]
    exact ⟨rfl, rfl⟩
  all_goals simp

/-- A load that fails ends in an error. -/
theorem outcome_error {c : ElfCtx} (hstate : c.state = .error) :
    Outcome x ctx pcb
      ⟨rx, (elfFinish ctx (w.setElfCtx ctx c)).1, (elfFinish ctx (w.setElfCtx ctx c)).2⟩ := by
  rw [elfFinish, setElfCtx_elfCtx]
  simp only [hstate, if_true]
  refine ⟨rx, _, .refl, Or.inl ?_⟩
  rw [unblockProcess, setElfCtx_elfCtx]
  exact hstate

/-- **The load of an executable with all headers dealt with is done.** -/
theorem LoaderState.outcome (h : LoaderState x ctx pcb mems regions x.num x.num w)
    (hstate : (w.elfCtx ctx).state = .closing) :
    Outcome x ctx pcb ⟨rx, w, .call (.elfStep, ctx) 0⟩ := by
  refine .of_elfStep ?_
  rw [elfStep, if_neg (by decide)]
  simp only [hstate]
  generalize hw' : w.setElfCtx ctx _ = w'
  have h' : LoaderState x ctx pcb mems regions x.num x.num w' := hw' ▸ h.setElfCtx rfl rfl rfl
  have hdone : (w'.elfCtx ctx).state = .done := by
    rw [← hw', setElfCtx_elfCtx]
  obtain ⟨hstop, hctx, hmem, hregion, htext, hdata, hmepc, hstart, hheap⟩ :=
    elfFinish_done hdone rfl h'.pcb
  have htext' := h'.text x.text_lt
  have hdata' := h'.data x.data_lt
  rw [hstop]
  have hseg : ∀ i, i = x.text ∨ i = x.data → i < x.num → x.SegmentIn i
      ((elfFinish ctx w').1.region (regions (x.rank i))) (elfFinish ctx w').1.mem := by
    intro i hi hlt
    have hrecord := (h'.region i hi hlt).2.2
    refine (h'.loaded i hi hlt).congr ?_ ?_ (x.segment hi).2.2 fun a _ => by rw [hmem]
    · rw [(hregion _).1, hrecord]
    · rw [(hregion _).2, hrecord]
  refine ⟨rx, _, .refl, Or.inr ⟨?_, ?_, ?_, ?_, ?_, ?_⟩⟩
  · rw [hctx]
    exact h'.processed
  · rw [htext, htext'.1]
    exact hseg _ (Or.inl rfl) x.text_lt
  · rw [hdata, hdata'.1]
    exact hseg _ (Or.inr rfl) x.data_lt
  · rw [hmepc, htext'.2]
  · rw [hstart, hdata'.2.1]
  · rw [hheap, hdata'.2.2]

/-! ## The next header -/

/-- The program header comes right after the header in the context. -/
theorem sub_elfHeader_of_lt (ctx : Ptr) {a : Word} (h : (a - elfPheader ctx).toNat < 32) :
    52 ≤ (a - elfHeader ctx).toNat ∧ (a - elfHeader ctx).toNat < 84 := by
  rw [elfPheader] at h
  rw [elfHeader]
  bv_omega

/-- Reading a program header leaves what the loader has done alone. -/
theorem LoaderState.readHeader (h : LoaderState x ctx pcb mems regions k j w) (hjk : j ≤ k)
    (hapart : AllocsApart x ctx mems regions) (hw : Untouched (elfPheader ctx) 32 w w')
    (hfile : FileOn x.toVolume x.clusters (w'.file (elfFile ctx)))
    (hsize : (w'.file (elfFile ctx)).fileSize = (w.file (elfFile ctx)).fileSize) :
    LoaderState x ctx pcb mems regions k j w' := by
  refine h.untouched hw hfile hsize (fun a ha => ?_) fun i hi hj a ha => ?_
  · by_contra hlt
    have := sub_elfHeader_of_lt ctx (Nat.lt_of_not_le hlt)
    omega
  · by_contra hlt
    have hin := (sub_elfHeader_of_lt ctx (Nat.lt_of_not_le hlt)).2
    have := hapart.headers i hi (h.region i hi (by omega)).1 a hin
    omega

/-- The loader counts the headers. -/
theorem currentSeg_lt_iff {i : Nat} (hi : i < x.num) :
    (BitVec.ofNat 32 i + 1).toInt < ((x.ehdr x.clusters).ePhnum.toNat : Int) ↔ i + 1 < x.num := by
  have hnum : x.num = (x.ehdr x.clusters).ePhnum.toNat := rfl
  have hlt := (x.ehdr x.clusters).ePhnum.isLt
  have hseg : (BitVec.ofNat 32 i + 1).toNat = i + 1 := by
    rw [BitVec.toNat_add, BitVec.toNat_ofNat]
    change (i % 2 ^ 32 + 1) % 2 ^ 32 = i + 1
    omega
  rw [BitVec.toInt_eq_toNat_of_lt (by omega), hseg, hnum]
  omega

/-- **On to the next header**, if the file is where it begins; after the last, the load is done. -/
theorem LoaderState.next {i : Nat} (h : LoaderState x ctx pcb mems regions (i + 1) (i + 1) w)
    (hi : i < x.num) (hseg : (w.elfCtx ctx).currentSeg = BitVec.ofNat 32 i)
    (hapart : AllocsApart x ctx mems regions)
    (hcur : i + 1 < x.num → ∃ s,
      CursorAt x.toVolume x.clusters (w.file (elfFile ctx)) s (x.phOffset (i + 1)) ∧
      (s = x.phOffset (i + 1) ∨ (w.file (elfFile ctx)).currentByte.toNat + 32 ≤ 512))
    (ih : i + 1 < x.num → ∀ rx w, AtHeader x ctx pcb mems regions (i + 1) w →
      Outcome x ctx pcb ⟨rx, w, .call (.elfStep, ctx) 0⟩) :
    Outcome x ctx pcb ⟨rx, (elfReadNextProgramHeader x.toFatDriver ctx w).1,
      (elfReadNextProgramHeader x.toFatDriver ctx w).2⟩ := by
  rw [elfReadNextProgramHeader, h.ehdr, hseg]
  by_cases hmore : i + 1 < x.num
  · simp only [if_pos ((currentSeg_lt_iff hi).2 hmore)]
    generalize hw₁ : w.setElfCtx ctx _ = w₁
    have h₁ : LoaderState x ctx pcb mems regions (i + 1) (i + 1) w₁ := hw₁ ▸ h.setElfCtx rfl rfl rfl
    have hf₁ : w₁.file (elfFile ctx) = w.file (elfFile ctx) := by
      rw [← hw₁]
      rfl
    obtain ⟨s, hs, hin⟩ := hcur hmore
    obtain ⟨rx', w', hreach, hread⟩ := @reaches_read x.toVolume x.clusters (elfFile ctx)
      (elfPheader ctx) ctx .elfStep w₁ s (x.phOffset (i + 1)) phdrSize h₁.fileOn (hf₁ ▸ hs)
      (by rw [hf₁]; exact hin) (by rw [h₁.size]; exact x.phOffset_le hmore) (by decide) rx
    refine .of_reaches hreach (ih hmore rx' w' ?_)
    have hctx : w'.elfCtx ctx = w₁.elfCtx ctx := congrFun hread.untouched.elfCtx ctx
    refine ⟨h₁.readHeader le_rfl hapart hread.untouched hread.fileOn hread.size, ?_, ?_, ?_, ?_⟩
    · rw [hctx, ← hw₁, setElfCtx_elfCtx]
    · rw [hctx, ← hw₁, setElfCtx_elfCtx, BitVec.ofNat_add]
      rfl
    · exact x.loadPhdr_eq x.clusters hread.copied
    · obtain ⟨s', hs', -, hlast⟩ := hread.cursor
      exact ⟨s', hs', hlast (by decide)⟩
  · simp only [if_neg (mt (currentSeg_lt_iff hi).1 hmore)]
    rw [show i + 1 = x.num by omega] at h
    rw [fsCloseSubmit]
    exact LoaderState.outcome (h.setElfCtx rfl rfl rfl) (by rw [setElfCtx_elfCtx])

/-! ## One header -/

/-- The byte of a cursor that is not at the beginning of a sector. -/
theorem CursorAt.currentByte_eq {v : Volume} {l : List Word} {f : File} {s o : Nat}
    (h : CursorAt v l f s o) (hs : s / 512 = (o - 1) / 512) (ho : 0 < o % 512) :
    f.currentByte.toNat = o % 512 := by
  have hbyte := h.byte
  omega

section Steps

variable {d : FatDriver} {ph : ElfPhdr}

/-- An entry that is not loaded is passed over. -/
theorem elfStep_skip (hstate : (w.elfCtx ctx).state = .readPheader)
    (hphdr : loadPhdr w.mem (elfPheader ctx) = ph) (hload : ¬ ph.IsLoad) :
    elfStep d ctx 0 w = elfReadNextProgramHeader d ctx (w.setElfCtx ctx
      { w.elfCtx ctx with processed := (w.elfCtx ctx).processed ++ [ph] }) := by
  have hne : ph.pType ≠ ptLoad := hload
  rw [elfStep, if_neg (by decide)]
  simp only [hstate, hphdr, if_pos hne]

/-- The world with a segment's memory allocated and cleared. -/
def allocSegment (ctx : Ptr) (ph : ElfPhdr) (w : FsWorld) : FsWorld :=
  ({ w with
    mem := memset (w.uallocs 0) 0 ph.pMemsz w.mem
    region := Function.update w.region (w.kmallocRegions 0) ⟨w.uallocs 0, ph.pMemsz, 1⟩
    uallocs := fun n => w.uallocs (n + 1)
    kmallocRegions := fun n => w.kmallocRegions (n + 1) } : FsWorld).setElfCtx ctx
    { w.elfCtx ctx with
      processed := (w.elfCtx ctx).processed ++ [ph]
      segBuf := w.uallocs 0
      tmpImage := imageSegment (w.elfCtx ctx).tmpImage (loadEhdr w.mem (elfHeader ctx)) ph
        (w.kmallocRegions 0)
      state := .seekPcontent }

/-- For a segment there is memory, and then its contents are sought; or there is none. -/
theorem elfStep_segment (hstate : (w.elfCtx ctx).state = .readPheader)
    (hphdr : loadPhdr w.mem (elfPheader ctx) = ph) (hload : ph.IsLoad) :
    elfStep d ctx 0 w =
      fsSeekWhence d (elfFile ctx) ph.pOffset (some .set) .elfStep ctx (allocSegment ctx ph w) ∧
        w.kmallocRegions 0 ≠ null ∧ w.uallocs 0 ≠ null ∨
      ∃ (w' : FsWorld) (c : ElfCtx), elfStep d ctx 0 w = elfFinish ctx (w'.setElfCtx ctx c) ∧
        c.state = .error ∧ w'.mem = w.mem := by
  have heq : ¬ ph.pType ≠ ptLoad := not_not.2 hload
  rw [elfStep, if_neg (by decide)]
  simp only [hstate, hphdr, if_neg heq]
  split
  · exact Or.inr ⟨_, _, rfl, rfl, rfl⟩
  · rename_i hregion
    split
    · exact Or.inr ⟨_, _, rfl, rfl, rfl⟩
    · rename_i hmem
      refine Or.inl ⟨?_, hregion, hmem⟩
      simp only [allocSegment, FsWorld.setElfCtx, FsWorld.kmallocRegion, FsWorld.ualloc,
        Function.update_idem]

end Steps

/-- An entry that is not loaded is passed over. -/
theorem AtHeader.skip {i : Nat} (h : AtHeader x ctx pcb mems regions i w) (hi : i < x.num)
    (hload : ¬ (x.ph i).IsLoad) (hstep : x.InStep) (hapart : AllocsApart x ctx mems regions)
    (ih : i + 1 < x.num → ∀ rx w, AtHeader x ctx pcb mems regions (i + 1) w →
      Outcome x ctx pcb ⟨rx, w, .call (.elfStep, ctx) 0⟩) :
    Outcome x ctx pcb ⟨rx, w, .call (.elfStep, ctx) 0⟩ := by
  refine .of_elfStep ?_
  have hnot : ¬ (i = x.text ∨ i = x.data) := mt (x.isLoad_iff i hi).2 hload
  have hlt : ∀ t, t = x.text ∨ t = x.data → (t < i + 1 ↔ t < i) := by
    rintro t (rfl | rfl) <;> omega
  have hprocessed : (w.elfCtx ctx).processed ++ [x.ph i] = (List.range (i + 1)).map x.ph := by
    rw [h.processed, List.range_succ, List.map_append, List.map_singleton]
  rw [elfStep_skip h.state h.phdr hload]
  refine LoaderState.next ⟨h.fileOn, h.size, h.ehdr, ?_, ?_, fun ht => ?_, fun hd => ?_,
    fun t ht hk => h.region t ht ((hlt t ht).1 hk), fun t ht hk => h.loaded t ht ((hlt t ht).1 hk),
    ?_, ?_⟩ hi ?_ hapart (fun hmore => ?_) ih
  · rw [setElfCtx_elfCtx, hprocessed]
  · rw [setElfCtx_elfCtx]
    exact h.pcb
  · rw [setElfCtx_elfCtx]
    exact h.text ((hlt _ (Or.inl rfl)).1 ht)
  · rw [setElfCtx_elfCtx]
    exact h.data ((hlt _ (Or.inr rfl)).1 hd)
  · rw [x.rank_succ_of_skip hnot]
    exact h.uallocs
  · rw [x.rank_succ_of_skip hnot]
    exact h.kmallocRegions
  · rw [setElfCtx_elfCtx]
    exact h.currentSeg
  · -- the file is where the next header begins, inside a sector
    obtain ⟨s, hs, hsector⟩ := h.cursor
    obtain ⟨hpos, hfit⟩ := (hstep.sector i hmore).resolve_left fun hl => hload hl.1
    have hoffset : x.phOffset (i + 1) = x.phOffset i + 32 := by
      rw [Executable.phOffset, Executable.phOffset, Volume.phdrOffset, Volume.phdrOffset]
      omega
    rw [hoffset] at hpos hfit ⊢
    refine ⟨s, hs, Or.inr ?_⟩
    have hbyte := hs.currentByte_eq hsector hpos
    exact (congrArg (· + 32) hbyte).trans_le hfit

/-! ## A segment -/

/-- The memory of one segment is not that of the other. -/
theorem AllocsApart.apart (h : AllocsApart x ctx mems regions) {i t : Nat}
    (hi : i = x.text ∨ i = x.data) (ht : t = x.text ∨ t = x.data) (hne : t ≠ i)
    (himem : mems (x.rank i) ≠ null) (htmem : mems (x.rank t) ≠ null) (a : Word)
    (ha : (a - mems (x.rank t)).toNat < (x.ph t).pMemsz.toNat) :
    (x.ph i).pMemsz.toNat ≤ (a - mems (x.rank i)).toNat := by
  rcases hi with rfl | rfl <;> rcases ht with rfl | rfl
  · exact absurd rfl hne
  · by_contra hlt
    have := h.memory himem htmem a (Nat.lt_of_not_le hlt)
    omega
  · exact h.memory htmem himem a ha
  · exact absurd rfl hne

theorem AllocsApart.record_ne (h : AllocsApart x ctx mems regions) {i t : Nat}
    (hi : i = x.text ∨ i = x.data) (ht : t = x.text ∨ t = x.data) (hne : t ≠ i)
    (hiregion : regions (x.rank i) ≠ null) (htregion : regions (x.rank t) ≠ null) :
    regions (x.rank t) ≠ regions (x.rank i) := by
  rcases hi with rfl | rfl <;> rcases ht with rfl | rfl
  · exact absurd rfl hne
  · exact (h.record hiregion).symm
  · exact h.record htregion
  · exact absurd rfl hne

/-- What becomes of the process image. -/
theorem imageSegment_spec (image : ProcessImage) (hdr : ElfEhdr) (ph : ElfPhdr) (r : Ptr) :
    (ph.IsText → (imageSegment image hdr ph r).ptextMemoryRegion = r ∧
      (imageSegment image hdr ph r).mepc = hdr.eEntry ∧
      (imageSegment image hdr ph r).pdataMemoryRegion = image.pdataMemoryRegion ∧
      (imageSegment image hdr ph r).pdataStart = image.pdataStart ∧
      (imageSegment image hdr ph r).heapStart = image.heapStart) ∧
    (¬ ph.IsText → (imageSegment image hdr ph r).pdataMemoryRegion = r ∧
      (imageSegment image hdr ph r).pdataStart = ph.pVaddr ∧
      (imageSegment image hdr ph r).heapStart = ph.heapStart ∧
      (imageSegment image hdr ph r).ptextMemoryRegion = image.ptextMemoryRegion ∧
      (imageSegment image hdr ph r).mepc = image.mepc) := by
  constructor
  · intro ht
    have hflag : ph.pFlags &&& pfX ≠ 0 := ht
    rw [imageSegment, if_pos hflag]
    exact ⟨rfl, rfl, rfl, rfl, rfl⟩
  · intro ht
    have hflag : ¬ ph.pFlags &&& pfX ≠ 0 := ht
    rw [imageSegment, if_neg hflag]
    exact ⟨rfl, rfl, rfl, rfl, rfl⟩

/-- **The memory of a segment is allocated.** -/
theorem AtHeader.alloc {i : Nat} (h : AtHeader x ctx pcb mems regions i w)
    (hsel : i = x.text ∨ i = x.data) (hapart : AllocsApart x ctx mems regions)
    (hregion : regions (x.rank i) ≠ null) (hmem : mems (x.rank i) ≠ null) :
    LoaderState x ctx pcb mems regions (i + 1) i (allocSegment ctx (x.ph i) w) := by
  have hmem₀ : w.uallocs 0 = mems (x.rank i) := by rw [h.uallocs, Nat.zero_add]
  have hregion₀ : w.kmallocRegions 0 = regions (x.rank i) := by rw [h.kmallocRegions, Nat.zero_add]
  have hctx : (allocSegment ctx (x.ph i) w).elfCtx ctx =
      { w.elfCtx ctx with
        processed := (w.elfCtx ctx).processed ++ [x.ph i]
        segBuf := w.uallocs 0
        tmpImage := imageSegment (w.elfCtx ctx).tmpImage (loadEhdr w.mem (elfHeader ctx)) (x.ph i)
          (w.kmallocRegions 0)
        state := .seekPcontent } := setElfCtx_elfCtx ..
  have himage := imageSegment_spec (w.elfCtx ctx).tmpImage (loadEhdr w.mem (elfHeader ctx)) (x.ph i)
    (w.kmallocRegions 0)
  have hclear : ∀ a, (x.ph i).pMemsz.toNat ≤ (a - mems (x.rank i)).toNat →
      (allocSegment ctx (x.ph i) w).mem a = w.mem a := by
    intro a ha
    rw [← hmem₀] at ha
    exact if_neg (Nat.not_lt.2 ha)
  refine ⟨h.fileOn, h.size, ?_, ?_, ?_, fun ht => ?_, fun hd => ?_, fun t ht hlt => ?_,
    fun t ht hlt => ?_, fun n => ?_, fun n => ?_⟩
  · rw [← h.ehdr]
    exact loadEhdr_congr fun a ha => hclear a (hapart.headers i hsel hmem a (by omega))
  · rw [hctx, h.processed, List.range_succ, List.map_append, List.map_singleton]
  · rw [hctx]
    exact h.pcb
  · -- the text is this segment, or an earlier one
    rw [hctx]
    rcases hsel with rfl | rfl
    · obtain ⟨hr, hentry, -⟩ := himage.1 x.isText
      exact ⟨hr.trans hregion₀, hentry.trans (by rw [h.ehdr])⟩
    · obtain ⟨-, -, -, hr, hentry⟩ := himage.2 x.not_isText
      have hne := x.text_ne_data
      have hearlier := h.text (by omega)
      exact ⟨hr.trans hearlier.1, hentry.trans hearlier.2⟩
  · rw [hctx]
    rcases hsel with rfl | rfl
    · obtain ⟨-, -, hr, hstart, hheap⟩ := himage.1 x.isText
      have hne := x.text_ne_data
      have hearlier := h.data (by omega)
      exact ⟨hr.trans hearlier.1, hstart.trans hearlier.2.1, hheap.trans hearlier.2.2⟩
    · obtain ⟨hr, hstart, hheap, -⟩ := himage.2 x.not_isText
      exact ⟨hr.trans hregion₀, hstart, hheap⟩
  · rw [allocSegment]
    change _ ∧ _ ∧ Function.update w.region (w.kmallocRegions 0) _ _ = _
    by_cases hti : t = i
    · rw [hti, hregion₀, Function.update_self, hmem₀]
      exact ⟨hmem, hregion, rfl⟩
    · obtain ⟨htmem, htregion, hrecord⟩ := h.region t ht (by omega)
      rw [hregion₀, Function.update_of_ne (hapart.record_ne hsel ht hti hregion htregion)]
      exact ⟨htmem, htregion, hrecord⟩
  · have htmem := (h.region t ht hlt).1
    exact (h.loaded t ht hlt).congr rfl rfl (x.segment ht).2.2 fun a ha =>
      hclear a (hapart.apart hsel ht (by omega) hmem htmem a ha)
  · rw [x.rank_succ_of_load hsel]
    exact (h.uallocs (n + 1)).trans (by rw [Nat.add_right_comm, Nat.add_assoc])
  · rw [x.rank_succ_of_load hsel]
    exact (h.kmallocRegions (n + 1)).trans (by rw [Nat.add_right_comm, Nat.add_assoc])

/-- The contents have been sought, and are read. -/
theorem elfStep_contents {d : FatDriver} (hstate : (w.elfCtx ctx).state = .seekPcontent) :
    elfStep d ctx 0 w = fsReadSubmit d (elfFile ctx) (w.elfCtx ctx).segBuf
      (loadPhdr w.mem (elfPheader ctx)).pFilesz .elfStep ctx
      (w.setElfCtx ctx { w.elfCtx ctx with state := .loadPcontent }) := by
  rw [elfStep, if_neg (by decide)]
  simp only [hstate]

/-- The contents have been read. -/
theorem elfStep_next {d : FatDriver} (hstate : (w.elfCtx ctx).state = .loadPcontent) :
    elfStep d ctx 0 w = elfReadNextProgramHeader d ctx
      (w.setElfCtx ctx { w.elfCtx ctx with segBuf := null }) := by
  rw [elfStep, if_neg (by decide)]
  simp only [hstate]

/-- **The contents of a segment are read** into its memory. -/
theorem LoaderState.contents {i : Nat} (h : LoaderState x ctx pcb mems regions (i + 1) i w)
    (hsel : i = x.text ∨ i = x.data) (hapart : AllocsApart x ctx mems regions)
    (hzero : ∀ a, (a - mems (x.rank i)).toNat < (x.ph i).pMemsz.toNat → w.mem a = 0) {s : Nat}
    (hread : ReadsOn x.toVolume x.clusters (elfFile ctx) (mems (x.rank i)) s
      (x.ph i).pOffset.toNat (x.ph i).pFilesz.toNat w w') :
    LoaderState x ctx pcb mems regions (i + 1) (i + 1) w' := by
  have hmem := (h.region i hsel (Nat.lt_succ_self i)).1
  have hfit := (x.segment hsel).2.2
  have hlt := (x.ph i).pMemsz.isLt
  have h' : LoaderState x ctx pcb mems regions (i + 1) i w' := by
    refine h.untouched hread.untouched hread.fileOn hread.size (fun a ha => ?_) fun t ht hti a ha => ?_
    · exact hfit.trans (hapart.headers i hsel hmem a (by omega))
    · exact hfit.trans (hapart.apart hsel ht (by omega) hmem (h.region t ht (by omega)).1 a ha)
  refine ⟨h'.fileOn, h'.size, h'.ehdr, h'.processed, h'.pcb, h'.text, h'.data, h'.region,
    fun t ht hti => ?_, h'.uallocs, h'.kmallocRegions⟩
  by_cases heq : t = i
  · subst heq
    refine ⟨rfl, hread.copied, fun n hn hn' => ?_⟩
    have hsub : (mems (x.rank t) + BitVec.ofNat 32 n - mems (x.rank t)).toNat = n :=
      add_ofNat_sub _ (by omega)
    exact (hread.untouched.mem _ (hsub.symm ▸ hn)).trans (hzero _ (hsub.symm ▸ hn'))
  · exact h'.loaded t ht (by omega)

/-- **The contents are sought**, with the segment's memory allocated. -/
theorem AtHeader.seek {i : Nat} (h : AtHeader x ctx pcb mems regions i w) (hi : i < x.num)
    (hload : (x.ph i).IsLoad) (hstep : x.InStep) (hapart : AllocsApart x ctx mems regions)
    (hregion : regions (x.rank i) ≠ null) (hmem : mems (x.rank i) ≠ null) :
    ∃ rx' w', Reaches (fsCode x.toFatDriver) x.disk
        ⟨rx, (fsSeekWhence x.toFatDriver (elfFile ctx) (x.ph i).pOffset (some .set) .elfStep ctx
            (allocSegment ctx (x.ph i) w)).1,
          (fsSeekWhence x.toFatDriver (elfFile ctx) (x.ph i).pOffset (some .set) .elfStep ctx
            (allocSegment ctx (x.ph i) w)).2⟩
        ⟨rx', w', .call (.elfStep, ctx) 0⟩ ∧ AtContents x ctx pcb mems regions i w' := by
  have hsel := (x.isLoad_iff i hi).1 hload
  have hmem₀ : w.uallocs 0 = mems (x.rank i) := by rw [h.uallocs, Nat.zero_add]
  have h₁ := h.alloc hsel hapart hregion hmem
  obtain ⟨s, hs, hsector⟩ := h.cursor
  have hcluster : s / x.bytesPerCluster = (x.phOffset i + 31) / x.bytesPerCluster := by
    rw [Volume.bytesPerCluster, ← Nat.div_div_eq_div_mul, ← Nat.div_div_eq_div_mul, hsector]
  obtain ⟨rx', w', hreach, hu, hfile, hsize, hcur⟩ :=
    @reaches_seek x.toVolume x.clusters (elfFile ctx) ctx .elfStep (allocSegment ctx (x.ph i) w) s
      (x.phOffset i + 32) (x.ph i).pOffset h₁.fileOn hs (by rw [h₁.size]; exact (x.segment hsel).1)
      (fun hback => hback.2 (hcluster.trans (hstep.seek i hi hload hback.1))) rx
  have hctx : w'.elfCtx ctx = (allocSegment ctx (x.ph i) w).elfCtx ctx := congrFun hu.elfCtx ctx
  rw [allocSegment, setElfCtx_elfCtx] at hctx
  refine ⟨rx', w', hreach, h₁.untouched hu hfile hsize (fun _ _ => Nat.zero_le _)
    fun _ _ _ _ _ => Nat.zero_le _, ?_, ?_, ?_, ?_, fun a ha => ?_, hcur⟩
  · rw [hctx]
  · rw [hctx]
    exact h.currentSeg
  · rw [hctx]
    exact hmem₀
  · -- what was cleared is not the header
    rw [← h.phdr]
    refine loadPhdr_congr fun a ha => (hu.mem a (Nat.zero_le _)).trans (if_neg ?_)
    rw [hmem₀]
    exact Nat.not_lt.2 (hapart.headers i hsel hmem a (sub_elfHeader_of_lt ctx ha).2)
  · rw [← hmem₀] at ha
    exact (hu.mem a (Nat.zero_le _)).trans (if_pos ha)

/-- Where the contents of a segment end, the next header begins. -/
theorem Executable.InStep.cursor_next (hstep : x.InStep) {i : Nat} {buffer : Ptr}
    (hmore : i + 1 < x.num) (hload : (x.ph i).IsLoad)
    (hread : ReadsOn x.toVolume x.clusters (elfFile ctx) buffer (x.ph i).pOffset.toNat
      (x.ph i).pOffset.toNat (x.ph i).pFilesz.toNat w w') :
    ∃ s, CursorAt x.toVolume x.clusters (w'.file (elfFile ctx)) s (x.phOffset (i + 1)) ∧
      (s = x.phOffset (i + 1) ∨ (w'.file (elfFile ctx)).currentByte.toNat + 32 ≤ 512) := by
  obtain ⟨s, hs, hempty, hlast⟩ := hread.cursor
  rw [hstep.next i hmore hload] at hs hlast
  refine ⟨s, hs, ?_⟩
  by_cases hn : (x.ph i).pFilesz.toNat = 0
  · refine Or.inl ((hempty hn).trans ?_)
    rw [← hstep.next i hmore hload, hn, Nat.add_zero]
  · obtain ⟨hpos, hin⟩ := (hstep.sector i hmore).resolve_left fun hl => hn hl.2
    have hbyte := hs.currentByte_eq (hlast (Nat.pos_of_ne_zero hn)) hpos
    exact Or.inr ((congrArg (· + 32) hbyte).trans_le hin)

/-- **The contents are read**, and the next header after them. -/
theorem AtContents.outcome {i : Nat} (h : AtContents x ctx pcb mems regions i w) (hi : i < x.num)
    (hload : (x.ph i).IsLoad) (hstep : x.InStep) (hapart : AllocsApart x ctx mems regions)
    (ih : i + 1 < x.num → ∀ rx w, AtHeader x ctx pcb mems regions (i + 1) w →
      Outcome x ctx pcb ⟨rx, w, .call (.elfStep, ctx) 0⟩) :
    Outcome x ctx pcb ⟨rx, w, .call (.elfStep, ctx) 0⟩ := by
  have hsel := (x.isLoad_iff i hi).1 hload
  obtain ⟨-, hend, hfit⟩ := x.segment hsel
  have hmem := (h.region i hsel (Nat.lt_succ_self i)).1
  refine .of_elfStep ?_
  rw [elfStep_contents h.state, h.phdr, h.segBuf]
  generalize hw₁ : w.setElfCtx ctx _ = w₁
  have h₁ : LoaderState x ctx pcb mems regions (i + 1) i w₁ := by
    rw [← hw₁]
    exact h.toLoaderState.setElfCtx rfl rfl rfl
  have hzero : ∀ a, (a - mems (x.rank i)).toNat < (x.ph i).pMemsz.toNat → w₁.mem a = 0 := by
    rw [← hw₁]
    exact h.zero
  have hcur : CursorAt x.toVolume x.clusters (w₁.file (elfFile ctx)) (x.ph i).pOffset.toNat
      (x.ph i).pOffset.toNat := by
    rw [← hw₁]
    exact h.cursor
  obtain ⟨rx', w', hreach, hread⟩ := @reaches_read x.toVolume x.clusters (elfFile ctx)
    (mems (x.rank i)) ctx .elfStep w₁ (x.ph i).pOffset.toNat (x.ph i).pOffset.toNat
    (x.ph i).pFilesz h₁.fileOn hcur (Or.inl rfl) (by rw [h₁.size]; exact hend)
    (hfit.trans_lt (hapart.small i hsel hmem)) rx
  refine .of_reaches hreach (.of_elfStep ?_)
  have h' := h₁.contents hsel hapart hzero hread
  have hctx : w'.elfCtx ctx = w₁.elfCtx ctx := congrFun hread.untouched.elfCtx ctx
  rw [← hw₁, setElfCtx_elfCtx] at hctx
  rw [elfStep_next (by rw [hctx])]
  refine LoaderState.next (h'.setElfCtx rfl rfl rfl) hi ?_ hapart (fun hmore => ?_) ih
  · rw [setElfCtx_elfCtx, hctx]
    exact h.currentSeg
  · have hnext := hstep.cursor_next hmore hload hread
    exact hnext

/-- **A segment is loaded**, and the next header is read from where its contents end. -/
theorem AtHeader.load {i : Nat} (h : AtHeader x ctx pcb mems regions i w) (hi : i < x.num)
    (hload : (x.ph i).IsLoad) (hstep : x.InStep) (hapart : AllocsApart x ctx mems regions)
    (ih : i + 1 < x.num → ∀ rx w, AtHeader x ctx pcb mems regions (i + 1) w →
      Outcome x ctx pcb ⟨rx, w, .call (.elfStep, ctx) 0⟩) :
    Outcome x ctx pcb ⟨rx, w, .call (.elfStep, ctx) 0⟩ := by
  refine .of_elfStep ?_
  rcases @elfStep_segment ctx w x.toFatDriver (x.ph i) h.state h.phdr hload with
    ⟨heq, hregion, hmem⟩ | ⟨w', c, heq, hstate, -⟩
  · rw [h.kmallocRegions, Nat.zero_add] at hregion
    rw [h.uallocs, Nat.zero_add] at hmem
    rw [heq]
    obtain ⟨rx', w', hreach, h'⟩ := @AtHeader.seek x ctx pcb mems regions w rx i h hi hload hstep
      hapart hregion hmem
    exact .of_reaches hreach (h'.outcome hi hload hstep hapart ih)
  · rw [heq]
    exact outcome_error hstate

/-- **From any header on the load ends well**, or in an error. -/
theorem AtHeader.outcome {i : Nat} (h : AtHeader x ctx pcb mems regions i w) (hi : i < x.num)
    (hstep : x.InStep) (hapart : AllocsApart x ctx mems regions) :
    Outcome x ctx pcb ⟨rx, w, .call (.elfStep, ctx) 0⟩ := by
  -- by induction on the number of headers after this one
  induction hk : x.num - i using Nat.strong_induction_on generalizing i rx w with
  | _ k ih =>
    have hnext : i + 1 < x.num → ∀ rx w, AtHeader x ctx pcb mems regions (i + 1) w →
        Outcome x ctx pcb ⟨rx, w, .call (.elfStep, ctx) 0⟩ :=
      fun hmore rx w h' => ih (x.num - (i + 1)) (by omega) h' hmore rfl
    by_cases hload : (x.ph i).IsLoad
    · exact h.load hi hload hstep hapart hnext
    · exact h.skip hi hload hstep hapart hnext

/-! ## From the path -/

/-- The file is open, and nothing has been read. -/
structure Opened (x : Executable) (ctx pcb : Ptr) (mems regions : Nat → Ptr) (w : FsWorld) : Prop where
  file : w.file (elfFile ctx) = ⟨0, x.firstCluster, x.firstCluster, 0, 0, 0, x.size⟩
  ctx : w.elfCtx ctx = ⟨.opening, 0, ⟨null, null, 0, 0, 0⟩, pcb, null, []⟩
  uallocs : w.uallocs = mems
  kmallocRegions : w.kmallocRegions = regions

theorem elfValidateHeader_ne_zero (hdr : ElfEhdr) : elfValidateHeader hdr ≠ 0 := by
  rw [elfValidateHeader_eq]
  decide

theorem Opened.cursorAt (h : Opened x ctx pcb mems regions w) :
    CursorAt x.toVolume x.clusters (w.file (elfFile ctx)) 0 0 := by
  rw [h.file]
  refine ⟨rfl, ?_, by rw [Nat.zero_mod]; rfl, rfl⟩
  rw [Nat.zero_div]
  cases hl : x.clusters with
  | nil =>
    have hfits := x.fits
    have hsize := x.header_le
    rw [hl, List.length_nil, Nat.zero_mul] at hfits
    omega
  | cons c l =>
    have hchain := x.chain
    rw [hl] at hchain
    rw [List.getElem?_cons_zero, hchain.1]

/-- The header has been read. -/
theorem Opened.readHeader (h : Opened x ctx pcb mems regions w) {st : ElfState}
    (hread : ReadsOn x.toVolume x.clusters (elfFile ctx) (elfHeader ctx) 0 0 52
      (w.setElfCtx ctx { w.elfCtx ctx with state := st }) w') :
    LoaderState x ctx pcb mems regions 0 0 w' ∧ (w'.elfCtx ctx).state = st := by
  have hctx : w'.elfCtx ctx = { w.elfCtx ctx with state := st } := by
    rw [hread.untouched.elfCtx]
    exact setElfCtx_elfCtx ..
  have hrank : x.rank 0 = 0 := by rw [Executable.rank, if_neg (Nat.not_lt_zero _), if_neg (Nat.not_lt_zero _)]
  refine ⟨⟨hread.fileOn, hread.size.trans ?_, x.loadEhdr_eq x.clusters fun i hi => ?_, ?_, ?_, nofun,
    nofun, nofun, nofun, fun n => ?_, fun n => ?_⟩, ?_⟩
  · exact congrArg File.fileSize h.file
  · rw [hread.copied i hi, Nat.zero_add]
  · rw [hctx, h.ctx]
    rfl
  · rw [hctx, h.ctx]
  · rw [hread.untouched.uallocs, hrank, Nat.add_zero]
    exact congrFun h.uallocs n
  · rw [hread.untouched.kmallocRegions, hrank, Nat.add_zero]
    exact congrFun h.kmallocRegions n
  · rw [hctx]

/-- The table has been sought, and its first entry is read. -/
theorem LoaderState.first (h : LoaderState x ctx pcb mems regions 0 0 w)
    (hstate : (w.elfCtx ctx).state = .loadPheader) (hseg : (w.elfCtx ctx).currentSeg = 0)
    (hcur : CursorAt x.toVolume x.clusters (w.file (elfFile ctx)) (x.phOffset 0) (x.phOffset 0))
    (hstep : x.InStep) (hapart : AllocsApart x ctx mems regions) :
    Outcome x ctx pcb ⟨rx, w, .call (.elfStep, ctx) 0⟩ := by
  refine .of_elfStep ?_
  rw [elfStep, if_neg (by decide)]
  simp only [hstate]
  generalize hw₁ : w.setElfCtx ctx _ = w₁
  have h₁ : LoaderState x ctx pcb mems regions 0 0 w₁ := hw₁ ▸ h.setElfCtx rfl rfl rfl
  have hcur₁ : CursorAt x.toVolume x.clusters (w₁.file (elfFile ctx)) (x.phOffset 0)
      (x.phOffset 0) := by
    rw [← hw₁]
    exact hcur
  obtain ⟨rx', w', hreach, hread⟩ := @reaches_read x.toVolume x.clusters (elfFile ctx)
    (elfPheader ctx) ctx .elfStep w₁ (x.phOffset 0) (x.phOffset 0) phdrSize h₁.fileOn hcur₁
    (Or.inl rfl) (by rw [h₁.size]; exact x.phOffset_le x.num_pos) (by decide) rx
  have hctx : w'.elfCtx ctx = w₁.elfCtx ctx := congrFun hread.untouched.elfCtx ctx
  refine .of_reaches hreach (AtHeader.outcome ⟨h₁.readHeader le_rfl hapart hread.untouched
    hread.fileOn hread.size, ?_, ?_, x.loadPhdr_eq x.clusters hread.copied, ?_⟩ x.num_pos hstep hapart)
  · rw [hctx, ← hw₁, setElfCtx_elfCtx]
  · rw [hctx, ← hw₁, setElfCtx_elfCtx, hseg]
    rfl
  · obtain ⟨s, hs, -, hlast⟩ := hread.cursor
    exact ⟨s, hs, hlast (by decide)⟩

/-- **A load that has its file open ends well**, or in an error. -/
theorem Opened.outcome (h : Opened x ctx pcb mems regions w) (hstep : x.InStep)
    (hapart : AllocsApart x ctx mems regions) :
    Outcome x ctx pcb ⟨rx, w, .call (.elfStep, ctx) 0⟩ := by
  refine .of_elfStep ?_
  have hstate : (w.elfCtx ctx).state = .opening := by rw [h.ctx]
  rw [elfStep, if_neg (by decide)]
  simp only [hstate]
  -- the header
  obtain ⟨rx₁, w₁, hreach₁, hread⟩ := @reaches_read x.toVolume x.clusters (elfFile ctx)
    (elfHeader ctx) ctx .elfStep (w.setElfCtx ctx { w.elfCtx ctx with state := .readingHeader }) 0 0
    ehdrSize (by rw [show (w.setElfCtx ctx _).file = w.file from rfl, h.file]; exact ⟨x.chain, x.fits⟩)
    h.cursorAt (Or.inl rfl)
    (by rw [show (w.setElfCtx ctx _).file = w.file from rfl, h.file]; exact x.header_le) (by decide) rx
  obtain ⟨h₁, hstate₁⟩ := h.readHeader hread
  refine .of_reaches hreach₁ (.of_elfStep ?_)
  rw [elfStep, if_neg (by decide)]
  simp only [hstate₁, h₁.ehdr, if_neg (elfValidateHeader_ne_zero _)]
  -- the seek to the table
  generalize hw₁' : w₁.setElfCtx ctx _ = w₁'
  have h₁' : LoaderState x ctx pcb mems regions 0 0 w₁' := hw₁' ▸ h₁.setElfCtx rfl rfl rfl
  obtain ⟨s, hs, -, hlast⟩ := hread.cursor
  have hs' : CursorAt x.toVolume x.clusters (w₁'.file (elfFile ctx)) s (0 + 52) := by
    rw [← hw₁']
    exact hs
  have hfirst : s / x.bytesPerCluster = 0 := by
    rw [Volume.bytesPerCluster, ← Nat.div_div_eq_div_mul, hlast (by decide)]
    exact Nat.zero_div _
  have htable := x.phOffset_le x.num_pos
  have hoffset : x.phOffset 0 = (x.ehdr x.clusters).ePhoff.toNat := rfl
  obtain ⟨rx₂, w₂, hreach₂, hu₂, hfile₂, hsize₂, hcur₂⟩ :=
    @reaches_seek x.toVolume x.clusters (elfFile ctx) ctx .elfStep w₁' s (0 + 52)
      (x.ehdr x.clusters).ePhoff h₁'.fileOn hs' (by rw [h₁'.size]; omega)
      (fun hback => hback.2 hfirst) rx₁
  have hctx₂ : w₂.elfCtx ctx = w₁'.elfCtx ctx := congrFun hu₂.elfCtx ctx
  rw [← hw₁', setElfCtx_elfCtx] at hctx₂
  refine .of_reaches hreach₂ (LoaderState.first (h₁'.untouched hu₂ hfile₂ hsize₂
    (fun _ _ => Nat.zero_le _) fun _ _ _ _ _ => Nat.zero_le _) ?_ ?_ hcur₂ hstep hapart)
  · rw [hctx₂]
  · rw [hctx₂]

/-- **A load ends well, or in an error.** -/
theorem elfLoad_outcome {dirs : Word → List Word} {init : List Name83} {last : Name83} {d : Word}
    {e : DirEntry} (hwalk : x.Walkable dirs x.rootDirFirstCluster init)
    (hfinds : x.finds dirs init last = some (d, e)) (hcluster : e.cluster = x.firstCluster)
    (hsize : e.fileSize = x.size) (hstep : x.InStep)
    (hapart : AllocsApart x w.kmalloc.1 w.uallocs w.kmallocRegions) :
    Outcome x w.kmalloc.1 pcb
      ⟨rx, (elfLoadSubmit x.toFatDriver (pathOf (init ++ [last])) pcb w).1,
        (elfLoadSubmit x.toFatDriver (pathOf (init ++ [last])) pcb w).2⟩ := by
  rw [elfLoadSubmit]
  generalize hw₁ : FsWorld.setElfCtx _ _ _ = w₁
  have hkeep : w₁.elfCtx w.kmalloc.1 = ⟨.opening, 0, ⟨null, null, 0, 0, 0⟩, pcb, null, []⟩ ∧
      w₁.uallocs = w.uallocs ∧ w₁.kmallocRegions = w.kmallocRegions := by
    rw [← hw₁]
    exact ⟨setElfCtx_elfCtx .., rfl, rfl⟩
  have hstore : ∀ (w' : FsWorld) c, (w'.elfCtx w.kmalloc.1 =
        ⟨.opening, 0, ⟨null, null, 0, 0, 0⟩, pcb, null, []⟩ ∧
      w'.uallocs = w.uallocs ∧ w'.kmallocRegions = w.kmallocRegions) →
      (storeParentCluster (elfParentDirCluster w.kmalloc.1) c w').elfCtx w.kmalloc.1 =
        ⟨.opening, 0, ⟨null, null, 0, 0, 0⟩, pcb, null, []⟩ ∧
      (storeParentCluster (elfParentDirCluster w.kmalloc.1) c w').uallocs = w.uallocs ∧
      (storeParentCluster (elfParentDirCluster w.kmalloc.1) c w').kmallocRegions =
        w.kmallocRegions := by
    intro w' c h
    rw [storeParentCluster_eq]
    exact h
  have hens := @ensures_open x.toVolume dirs (elfFile w.kmalloc.1) (elfParentDirCluster w.kmalloc.1)
    w.kmalloc.1 .elfStep (fun _ => Eq)
    (fun w' k status => k = (.elfStep, w.kmalloc.1) ∧ status = 0 ∧
      Opened x w.kmalloc.1 pcb w.uallocs w.kmallocRegions w')
    (fun _ w' => w'.elfCtx w.kmalloc.1 = ⟨.opening, 0, ⟨null, null, 0, 0, 0⟩, pcb, null, []⟩ ∧
      w'.uallocs = w.uallocs ∧ w'.kmallocRegions = w.kmallocRegions) init last rx w₁
    ⟨fun _ _ _ hw => hw ▸ ⟨rfl, id⟩, fun _ _ _ => id, fun _ w' c => hstore w' c,
      fun d' e' he rx w' c hI => ?_, fun hnone => ?_⟩ hwalk (hstore _ _ hkeep)
  · obtain ⟨rx', w', k, status, hreach, rfl, rfl, hopened⟩ := hens.reaches fun _ _ => rfl
    exact .of_reaches hreach (hopened.outcome hstep hapart)
  · obtain ⟨rfl, rfl⟩ := Prod.mk.inj (Option.some.inj (hfinds.symm.trans he))
    refine .done ⟨rfl, rfl, ?_, hI.1, hI.2.1, hI.2.2⟩
    rw [← hcluster, ← hsize]
    exact setFile_file ..
  · rw [hfinds] at hnone
    cases hnone

end Loader

/-- If the load of the path ends in `ELF_DONE`, the executable is loaded. -/
def ElfLoads (x : Executable) (path : List Byte) (pcb : Ptr) (rx : Sector) (w : FsWorld) : Prop :=
  ∀ rx' w', Reaches (fsCode x.toFatDriver) x.disk
      ⟨rx, (elfLoadSubmit x.toFatDriver path pcb w).1, (elfLoadSubmit x.toFatDriver path pcb w).2⟩
      ⟨rx', w', .stop⟩ →
    (w'.elfCtx w.kmalloc.1).state = .done → x.Loaded w.kmalloc.1 pcb w'

/-- **An executable is loaded as it says, when the reading position keeps in step with its table.**
For every executable, in whatever order its entries are and however many others there are among
them, and every path under which it is found: if the contents of each segment end where the next
header begins, no header that follows another read touches a sector boundary, and no segment is in
the first cluster with its header in a later one, then a load that is done has processed exactly the
headers of the table, has both segments in memory, and has set up the process to run them. -/
theorem elfLoad_loads (x : Executable) (dirs : Word → List Word) (init : List Name83)
    (last : Name83) (d : Word) (e : DirEntry) (pcb : Ptr) (rx : Sector) (w : FsWorld)
    (hwalk : x.Walkable dirs x.rootDirFirstCluster init)
    (hfinds : x.finds dirs init last = some (d, e)) (hcluster : e.cluster = x.firstCluster)
    (hsize : e.fileSize = x.size)
    (hapart : AllocsApart x w.kmalloc.1 w.uallocs w.kmallocRegions) (hstep : x.InStep) :
    ElfLoads x (pathOf (init ++ [last])) pcb rx w := by
  intro rx' w' hreach hdone
  obtain ⟨rx₀, w₀, hreach₀, hend⟩ :=
    @elfLoad_outcome x pcb w rx dirs init last d e hwalk hfinds hcluster hsize hstep hapart
  obtain rfl := Reaches.stop_unique hreach₀ hreach
  refine hend.resolve_left fun herror => ?_
  rw [hdone] at herror
  cases herror

/-! ### Two executables

Both have their table right after the header, with the text first.  In one the text consists of the
file up to the second entry, so that the contents end where that begins; in the other the contents
come after the table, as a linker puts them. -/

/-- The bytes of a word. -/
def wordBytes (v : Word) : List Byte := [byteOf v 0, byteOf v 1, byteOf v 2, byteOf v 3]

/-- The bytes of a header with two entries at position 52. -/
def ehdrBytes : List Byte :=
  [0x7F, 0x45, 0x4C, 0x46, 1, 1] ++ List.replicate 10 0 ++ [2, 0, 0xF3, 0] ++ wordBytes 1 ++
    wordBytes 0x10000 ++ wordBytes 52 ++ List.replicate 12 0 ++ [2, 0] ++ List.replicate 6 0

/-- The bytes of a program header. -/
def phdrBytes (ph : ElfPhdr) : List Byte :=
  [ph.pType, ph.pOffset, ph.pVaddr, ph.pPaddr, ph.pFilesz, ph.pMemsz, ph.pFlags,
    ph.pAlign].flatMap wordBytes

/-- A card with the executable `A` in its root, in cluster 3. -/
def elfDisk (text data : ElfPhdr) (contents : List Byte) : Word → Sector
  | 1 => sectorOf [0, 0, 0, 0, 0, 0, 0, 0, 0xFF, 0xFF, 0xFF, 0x0F, 0xFF, 0xFF, 0xFF, 0x0F]
  | 10 => sectorOf (entryBytes nameA 0x20 3 160)
  | 11 => sectorOf (ehdrBytes ++ phdrBytes text ++ phdrBytes data ++ contents)
  | _ => fun _ => 0

/-- The one whose text is the file up to the second entry. -/
def overlappingElf : Executable :=
  { smallVolume (elfDisk ⟨1, 0, 0x10000, 0, 84, 84, 5, 4⟩ ⟨1, 116, 0x20000, 0, 4, 8, 6, 4⟩
      [1, 2, 3, 4]) with
    clusters := [3]
    firstCluster := 3
    size := 160
    chain := show Linked _ _ 3 _ by decide
    fits := by decide
    text := 0
    data := 1
    header_le := by decide
    table_le := by decide +kernel
    text_lt := by decide +kernel
    data_lt := by decide +kernel
    isText := by decide +kernel
    not_isText := by decide +kernel
    isLoad_iff := by decide +kernel
    contents := by
      rintro i (rfl | rfl)
      · decide +kernel
      · decide +kernel }

/-- The one whose contents come after the table. -/
def linkedElf : Executable :=
  { smallVolume (elfDisk ⟨1, 116, 0x10000, 0, 4, 4, 5, 4⟩ ⟨1, 120, 0x20000, 0, 4, 8, 6, 4⟩
      [9, 9, 9, 9, 7, 7, 7, 7]) with
    clusters := [3]
    firstCluster := 3
    size := 160
    chain := show Linked _ _ 3 _ by decide
    fits := by decide
    text := 0
    data := 1
    header_le := by decide
    table_le := by decide +kernel
    text_lt := by decide +kernel
    data_lt := by decide +kernel
    isText := by decide +kernel
    not_isText := by decide +kernel
    isLoad_iff := by decide +kernel
    contents := by
      rintro i (rfl | rfl)
      · decide +kernel
      · decide +kernel }

/-- The empty world has memory enough for both. -/
theorem emptyWorld_allocsApart {x : Executable} (htext : x.text = 0) (hdata : x.data = 1)
    (ht : (x.ph 0).pMemsz.toNat ≤ 0x1000) (hd : (x.ph 1).pMemsz.toNat ≤ 0x1000) :
    AllocsApart x emptyWorld.kmalloc.1 emptyWorld.uallocs emptyWorld.kmallocRegions := by
  have hrank₀ : x.rank 0 = 0 := by rw [Executable.rank, htext, hdata]; rfl
  have hrank₁ : x.rank 1 = 1 := by rw [Executable.rank, htext, hdata]; rfl
  refine ⟨?_, ?_, ?_, ?_⟩
  · rw [htext, hdata, hrank₀, hrank₁]
    decide
  · rw [htext, hdata, hrank₀, hrank₁]
    intro _ _ a ha
    change (a - 0x40000#32).toNat < _ at ha
    change _ ≤ (a - 0x41000#32).toNat
    bv_omega
  · rw [htext, hdata]
    rintro i (rfl | rfl) - a ha
    · rw [hrank₀]
      change (a - 0x1024#32).toNat < _ at ha
      change _ ≤ (a - 0x40000#32).toNat
      bv_omega
    · rw [hrank₁]
      change (a - 0x1024#32).toNat < _ at ha
      change _ ≤ (a - 0x41000#32).toNat
      bv_omega
  · rw [htext, hdata]
    rintro i (rfl | rfl) -
    · omega
    · omega

theorem overlappingElf_inStep : overlappingElf.InStep := by
  refine ⟨fun i hi => ?_, fun i hi => ?_, fun i hi => ?_⟩
  · obtain rfl : i = 0 := by
      have hnum : overlappingElf.num = 2 := by decide +kernel
      omega
    decide +kernel
  · obtain rfl : i = 0 := by
      have hnum : overlappingElf.num = 2 := by decide +kernel
      omega
    decide +kernel
  · revert i
    decide +kernel

/-- `A` is what the path leads to. -/
theorem overlappingElf_finds : overlappingElf.Walkable (fun c => [c]) 2 [] ∧
    overlappingElf.finds (fun c => [c]) [] nameA = some (2, ⟨nameA.packed, 0x20, 3, 160⟩) :=
  ⟨⟨show Linked _ _ 2 _ by decide, nofun⟩, by decide +kernel⟩

theorem linkedElf_finds : linkedElf.Walkable (fun c => [c]) 2 [] ∧
    linkedElf.finds (fun c => [c]) [] nameA = some (2, ⟨nameA.packed, 0x20, 3, 160⟩) :=
  ⟨⟨show Linked _ _ 2 _ by decide, nofun⟩, by decide +kernel⟩

/-- The load of `A`, submitted. -/
def loadStart : Config Sector FsWorld Word FsClosure :=
  ⟨fun _ => 0, (elfLoadSubmit smallDriver (pathOf [nameA]) 0x700 emptyWorld).1,
    (elfLoadSubmit smallDriver (pathOf [nameA]) 0x700 emptyWorld).2⟩

/-- The load after `n` callbacks. -/
def loadAfter (disk : Word → Sector) (n : Nat) : Config Sector FsWorld Word FsClosure :=
  (advance (fsCode smallDriver) disk)^[n] loadStart

theorem reaches_loadAfter {disk : Word → Sector} {n : Nat}
    (hstop : (loadAfter disk n).action = .stop) :
    Reaches (fsCode smallDriver) disk loadStart
      ⟨(loadAfter disk n).rx, (loadAfter disk n).world, .stop⟩ := by
  have hreach := reaches_advance (fsCode smallDriver) disk loadStart n
  rw [← hstop]
  exact hreach

/-- The first is loaded. -/
theorem elfLoad_loads_overlapping :
    ((loadAfter overlappingElf.disk 16).world.elfCtx 0x1000).state = .done ∧
      overlappingElf.Loaded 0x1000 0x700 (loadAfter overlappingElf.disk 16).world := by
  have hdone : ((loadAfter overlappingElf.disk 16).world.elfCtx 0x1000).state = .done := by
    decide +kernel
  have hstop : (loadAfter overlappingElf.disk 16).action = .stop := by decide +kernel
  have hreach := reaches_loadAfter hstop
  obtain ⟨hwalk, hfinds⟩ := overlappingElf_finds
  have hloads := elfLoad_loads overlappingElf (fun c => [c]) [] nameA 2 _ 0x700 (fun _ => 0) emptyWorld
    hwalk hfinds rfl rfl
    (emptyWorld_allocsApart rfl rfl (by decide +kernel) (by decide +kernel)) overlappingElf_inStep
  generalize loadAfter overlappingElf.disk 16 = c at hdone hreach ⊢
  exact ⟨hdone, hloads c.rx c.world hreach hdone⟩

/-- The second ends in `ELF_DONE`, too, with the contents of its data taken for the entry. -/
theorem elfLoad_misreads_table :
    linkedElf.Walkable (fun c => [c]) 2 [] ∧
      linkedElf.finds (fun c => [c]) [] nameA = some (2, ⟨nameA.packed, 0x20, 3, 160⟩) ∧
      AllocsApart linkedElf emptyWorld.kmalloc.1 emptyWorld.uallocs emptyWorld.kmallocRegions ∧
      ((loadAfter linkedElf.disk 13).world.elfCtx 0x1000).state = .done ∧
      ¬ ElfLoads linkedElf (pathOf [nameA]) 0x700 (fun _ => 0) emptyWorld := by
  have hdone : ((loadAfter linkedElf.disk 13).world.elfCtx 0x1000).state = .done := by
    decide +kernel
  have hstop : (loadAfter linkedElf.disk 13).action = .stop := by decide +kernel
  have hprocessed : ((loadAfter linkedElf.disk 13).world.elfCtx 0x1000).processed ≠
      (List.range linkedElf.num).map linkedElf.ph := by decide +kernel
  have hreach := reaches_loadAfter hstop
  generalize loadAfter linkedElf.disk 13 = c at hdone hreach hprocessed ⊢
  refine ⟨linkedElf_finds.1, linkedElf_finds.2,
    emptyWorld_allocsApart rfl rfl (by decide +kernel) (by decide +kernel), hdone, fun hloads => ?_⟩
  exact hprocessed (hloads c.rx c.world hreach hdone).processed

end RiscyOS
