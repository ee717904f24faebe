import RiscyOS.Process.TableRing

/-!
# What a fork is for

`docs/forking.md` has the plan: the child shares the text, has the parent's registers and a copy of its
data, sees 0 where the parent sees its id, and `getpid` tells it that id.

* `Kernel.ForkCopied` — the part of the plan that is about the PCBs and the region record.  It comes out
  (`ecallFork_copied`) if `a2` happens to hold the size of what is to be copied; `ecall_fork` puts that
  into `a3`.
* `Kernel.ForkSemantics` — the plan as a whole.  It never comes out (`fork_semantics_never`): the data are
  not copied, and what `getpid` reads as the id is a word.
-/

set_option autoImplicit false

namespace RiscyOS

open Memory

/-- `TRAP_FRAME_SIZE`. -/
def trapFrameSize : Nat := 120

/-- `PCB_FORK_MEM_CPY_SIZE`. -/
def pcbForkMemCpySize : Nat := 164

namespace Kernel

variable {s t u : Kernel} {s0 child : Ptr} {g : ForkGrants} {m : Mem} {csr : Csr}

/-- `ecall_getpid`.  The field is a byte, and what is loaded from it a word. -/
def ecallGetpid (s : Kernel) (a0 : Ptr) : Kernel :=
  let t0 := if s.currentPcb = null then -1 else word s.mem s.currentPcb pcbPid
  { s with mem := setWord s.mem a0 tfA0 t0 }

/-- The memory that a region record describes. -/
def userSpan (m : Mem) (r : Ptr) : Span :=
  ⟨word m r memoryRegionPhysicalBase, (word m r memoryRegionSize).toNat⟩

/-- **The PCBs after a fork**, and the child's region record. -/
structure ForkCopied (s u : Kernel) (s0 child : Ptr) : Prop where
  frame : ∀ i < trapFrameSize, i < tfA0 ∨ tfA0 + 4 ≤ i → byte u.mem child i = byte s.mem s0 i
  child_a0 : word u.mem child tfA0 = 0
  mepc : word u.mem child pcbMepc = s.csr.mepc
  mstatus : word u.mem child pcbMstatus = word s.mem s0 pcbMstatus
  mscratch : word u.mem child pcbMscratch = s.csr.mscratch
  brk : word u.mem child pcbBrk = word s.mem s0 pcbBrk
  parentDirCluster : word u.mem child pcbParentDirCluster = word s.mem s0 pcbParentDirCluster
  ptext : u.ptext child = s.ptext s0
  pdataStart : word u.mem child pcbPdataStart = word s.mem s0 pcbPdataStart
  fresh : u.pdata child ∉ s.regions
  size : word u.mem (u.pdata child) memoryRegionSize = word s.mem (s.pdata s0) memoryRegionSize
  ppid : byte u.mem child pcbPpid = s.pid s0
  parent_a0 : word u.mem s0 tfA0 = (u.pid child).setWidth 32
  others : ∀ p ∈ s.pcbs, p ≠ s0 → ∀ i < pcbSize, byte u.mem p i = byte s.mem p i

/-- **Fork.**  The child's data are those of the parent; what `getpid` tells the child, as long as its
process is as the fork has left it, is what the parent has got; and the memory of the other processes is
what it was. -/
structure ForkSemantics (s u : Kernel) (s0 child : Ptr) : Prop extends ForkCopied s u s0 child where
  data : ∀ i < (word s.mem (s.pdata s0) memoryRegionSize).toNat,
    u.mem ((userSpan u.mem (u.pdata child)).base + BitVec.ofNat 32 i) =
      s.mem ((userSpan s.mem (s.pdata s0)).base + BitVec.ofNat 32 i)
  getpid : ∀ t : Kernel, t.currentPcb = child →
    (∀ i, pcbPid ≤ i → i ≤ pcbWaitReason → byte t.mem child i = byte u.mem child i) →
      word (t.ecallGetpid child).mem child tfA0 = word u.mem s0 tfA0
  others_data : ∀ p ∈ s.pcbs, p ≠ s0 → ∀ r, r = s.ptext p ∨ r = s.pdata p → r ≠ null →
    ∀ x, (userSpan s.mem r).Has x → u.mem x = s.mem x

/-! ## The copy -/

section Stores

variable (hap : (pcbSpan s0).Apart (pcbSpan g.pcb))

/-- What is stored after the copy. -/
def forkFields (s0 : Ptr) (g : ForkGrants) : List Span :=
  [part g.pcb tfA0 4, part g.pcb pcbPpid 1, part g.pcb pcbPdataMemoryRegion 4, part g.pcb pcbStatus 1,
    part g.pcb pcbMepc 4, part g.pcb pcbMscratch 4, part s0 tfA0 4, part s0 pcbNext 4]

/-- The bytes that are copied and not stored after that, by their offsets. -/
def Copied (i : Nat) : Prop :=
  i < 32 ∨ 36 ≤ i ∧ i < 120 ∨ 124 ≤ i ∧ i < 128 ∨ 132 ≤ i ∧ i < 148 ∨ 152 ≤ i ∧ i < 164

instance (i : Nat) : Decidable (Copied i) := inferInstanceAs (Decidable (_ ∨ _))

theorem forkStores_fields (m : Mem) (csr : Csr) (s0 : Ptr) (g : ForkGrants) :
    Alters (forkFields s0 g) (memcpy m s0 g.pcb g.a2.toNat) (forkStores m csr s0 g) := by
  have hfield : ∀ {b : Span}, b ∈ forkFields s0 g → Covered (forkFields s0 g) b := .of_mem
  simp only [forkStores]
  refine ((((((((Alters.refl _ _).setWord (hfield ?_)).setWord (hfield ?_)).setByte (hfield ?_)).setWord
    (hfield ?_)).setWord (hfield ?_)).setByte (hfield ?_)).setWord (hfield ?_)).setWord (hfield ?_)
  all_goals simp [forkFields]

theorem forkStores_child_mepc : word (forkStores m csr s0 g) g.pcb pcbMepc = csr.mepc := by
  simp (disch := decide) only [forkStores, word_setWord_ne, word_setWord]

theorem forkStores_child_mscratch : word (forkStores m csr s0 g) g.pcb pcbMscratch = csr.mscratch := by
  simp only [forkStores, word_setWord]

include hap

theorem forkStores_child_byte (hsize : g.a2.toNat = pcbForkMemCpySize) {i : Nat} (hi : Copied i) :
    byte (forkStores m csr s0 g) g.pcb i = byte m s0 i := by
  have hlt : i < g.a2.toNat := by
    rw [Copied] at hi
    rw [hsize, pcbForkMemCpySize]
    omega
  rw [(forkStores_fields m csr s0 g).byte]
  · exact byte_memcpy_child hap hlt (hsize.trans_le (by decide))
  · rw [Copied] at hi
    simp only [forkFields, List.forall_mem_cons, tfA0, pcbPpid, pcbPdataMemoryRegion, pcbStatus, pcbMepc,
      pcbMscratch, pcbNext]
    refine ⟨part_apart ?_ (by decide) ?_, part_apart ?_ (by decide) ?_, part_apart ?_ (by decide) ?_,
      part_apart ?_ (by decide) ?_, part_apart ?_ (by decide) ?_, part_apart ?_ (by decide) ?_,
      hap.part (by decide) ?_, hap.part (by decide) ?_, by simp⟩
    all_goals
      rw [pcbForkMemCpySize] at hsize
      try rw [pcbSize]
      omega

theorem forkStores_child_word (hsize : g.a2.toNat = pcbForkMemCpySize) {i : Nat} (hi : ∀ k < 4, Copied (i + k)) :
    word (forkStores m csr s0 g) g.pcb i = word m s0 i :=
  word_congr fun k hk => forkStores_child_byte hap hsize (hi k hk)

theorem forkStores_child_a0 : word (forkStores m csr s0 g) g.pcb tfA0 = 0 := by
  simp (disch := decide) only [forkStores, word_setWord_ne, word_setByte_ne, word_setWord_apart hap,
    word_setWord]

theorem forkStores_child_ppid : byte (forkStores m csr s0 g) g.pcb pcbPpid =
    byte (memcpy m s0 g.pcb g.a2.toNat) s0 pcbPid := by
  simp (disch := decide) only [forkStores, byte_setWord_ne, byte_setByte_ne, byte_setWord_apart hap,
    byte_setWord_apart hap.symm, byte_setByte]

theorem forkStores_parent_a0 : word (forkStores m csr s0 g) s0 tfA0 =
    (byte (forkStores m csr s0 g) g.pcb pcbPid).setWidth 32 := by
  simp (disch := decide) only [forkStores, word_setWord_apart hap.symm, word_setByte_apart hap.symm,
    word_setWord_ne, word_setWord, byte_setWord_ne, byte_setByte_ne, byte_setWord_apart hap]

end Stores

/-- Different words of region records, of the same or of two, and of what a null pointer leads to. -/
theorem Placed.region_part_apart (h : s.Placed) {r q : Ptr} (hr : r = null ∨ r ∈ s.regions) (hq : q ∈ s.regions)
    {i j a b : Nat} (hij : i + a ≤ j ∨ j + b ≤ i) (hi : i + a ≤ memoryRegionStructSize)
    (hj : j + b ≤ memoryRegionStructSize) : (part r i a).Apart (part q j b) := by
  rcases hr with rfl | hr
  · exact (h.regions_low q hq).symm.part (hi.trans (by decide)) hj
  · by_cases hrq : r = q
    · subst hrq
      exact Memory.part_apart hij (hi.trans (by decide)) (hj.trans (by decide))
    · exact (h.regions.forall hr hq hrq).part hi hj

section Copy

variable (hpl : s.Placed) (hs0 : s0 ∈ s.pcbs) (hpcb : s.Grants g.pcb pcbSize)
  (hregion : (s.allocPcb g.pcb).Grants g.region memoryRegionStructSize) (hg : g.Enough)
  (htext : s.ptext s0 = null ∨ s.ptext s0 ∈ s.regions)

include hpl hpcb hregion hg htext

/-- Up to the copy the PCBs handed out are what they were. -/
theorem forkRegion_byte {p : Ptr} (hp : p ∈ s.pcbs) {i : Nat} (hi : i < pcbSize) :
    byte ((s.forkStart s0 g).forkRegion s0 g) p i = byte s.mem p i := by
  have hcount := hpl.outside_count (hpl.regionOutside htext)
  have hchild := hpl.outside_of_grants hpcb (by decide)
  rw [(forkRegion_alters _ s0 g).byte, (forkStart_alters s s0 g).byte]
  · simp only [List.forall_mem_cons]
    exact ⟨hcount.spares hi p hp, hchild.spares hi p hp, by simp⟩
  · exact List.forall_mem_singleton.2 ((forkRegion_apart hregion hg).1.spares hi p hp)

theorem forkRegion_word {p : Ptr} (hp : p ∈ s.pcbs) {i : Nat} (hi : i + 4 ≤ pcbSize) :
    word ((s.forkStart s0 g).forkRegion s0 g) p i = word s.mem p i :=
  word_congr fun _ _ => forkRegion_byte hpl hpcb hregion hg htext hp (by omega)

include hs0

/-- The child's region record has the size of the parent's. -/
theorem forkRegion_size (hdata : s.pdata s0 ∈ s.regions) :
    word ((s.forkStart s0 g).forkRegion s0 g) g.region memoryRegionSize =
      word s.mem (s.pdata s0) memoryRegionSize := by
  obtain ⟨-, hregionPcbs, hregionRegions⟩ := hregion.resolve_left hg.2.2
  obtain ⟨-, -, hpcbRegions⟩ := hpcb.resolve_left hg.2.1
  -- the record is not written before its size is read, and the count of the text is another word of it
  have hstart : word (s.forkStart s0 g).mem (s.pdata s0) memoryRegionSize =
      word s.mem (s.pdata s0) memoryRegionSize := by
    refine (forkStart_alters s s0 g).word ?_
    simp only [List.forall_mem_cons]
    have hchild := (hpcbRegions _ hdata).part (Nat.le_of_eq (Nat.zero_add pcbSize))
      (j := memoryRegionSize) (b := 4) (by decide)
    rw [part_zero] at hchild
    exact ⟨hpl.region_part_apart htext hdata (by decide) (by decide) (by decide), hchild, by simp⟩
  have hpointer : ∀ {m : Mem}, Alters [regionSpan g.region] (s.forkStart s0 g).mem m →
      word m s0 pcbPdataMemoryRegion = s.pdata s0 := by
    intro m hm
    rw [hm.word, (forkStart_alters s s0 g).word]
    · rfl
    · simp only [List.forall_mem_cons]
      exact ⟨(hpl.outside_count (hpl.regionOutside htext)).spares (by decide) s0 hs0,
        (hpl.outside_of_grants hpcb (by decide)).spares (by decide) s0 hs0, by simp⟩
    · exact List.forall_mem_singleton.2 ((forkRegion_apart hregion hg).1.spares (by decide) s0 hs0)
  have hbase : Alters [regionSpan g.region] (s.forkStart s0 g).mem
      (setWord (aquireMemorySegment (s.forkStart s0 g).mem g.region) g.region memoryRegionPhysicalBase g.umem) :=
    ((aquireMemorySegment_alters _ _).mono (List.forall_mem_singleton.2 (.part List.mem_cons_self
      (by decide)))).setWord (.part List.mem_cons_self (by decide))
  have hnew := (hregionRegions _ hdata).part (Nat.le_of_eq (Nat.zero_add memoryRegionStructSize))
    (j := memoryRegionSize) (b := 4) (by decide)
  rw [part_zero] at hnew
  rw [forkRegion, word_setWord, hpointer hbase, hbase.word (List.forall_mem_singleton.2 hnew), hstart]

/-- **The PCBs after a fork** that gets all it asks for, if the copy has the right size. -/
theorem ecallFork_copied (hsize : g.a2.toNat = pcbForkMemCpySize) (hdata : s.pdata s0 ∈ s.regions) :
    ForkCopied s (s.ecallFork s0 g) s0 g.pcb := by
  have hap : (pcbSpan s0).Apart (pcbSpan g.pcb) := hpl.outside_of_grants hpcb (by decide) s0 hs0
  have hspan := forkRegion_apart hregion hg
  have hparent := fun {i : Nat} => @forkRegion_byte s s0 g hpl hpcb hregion hg htext s0 hs0 i
  have hparentWord := fun {i : Nat} => @forkRegion_word s s0 g hpl hpcb hregion hg htext s0 hs0 i
  have hword : ∀ {i : Nat}, (∀ k < 4, Copied (i + k)) → i + 4 ≤ pcbSize →
      word (forkStores ((s.forkStart s0 g).forkRegion s0 g) s.csr s0 g) g.pcb i = word s.mem s0 i :=
    fun hi hle => (forkStores_child_word hap hsize hi).trans (hparentWord hle)
  have hpdata : (s.ecallFork s0 g).pdata g.pcb = g.region := by
    rw [ecallFork_eq hg]
    exact forkStores_child_pdata hap
  constructor
  · intro i hi hne
    rw [ecallFork_eq hg]
    refine (forkStores_child_byte hap hsize ?_).trans (hparent (hi.trans (by decide)))
    rw [trapFrameSize] at hi
    rw [tfA0] at hne
    rw [Copied]
    omega
  · rw [ecallFork_eq hg]
    exact forkStores_child_a0 hap
  · rw [ecallFork_eq hg]
    exact forkStores_child_mepc
  · rw [ecallFork_eq hg]
    exact hword (by decide) (by decide)
  · rw [ecallFork_eq hg]
    exact forkStores_child_mscratch
  · rw [ecallFork_eq hg]
    exact hword (by decide) (by decide)
  · rw [ecallFork_eq hg]
    exact hword (by decide) (by decide)
  · rw [ecallFork_eq hg]
    exact hword (by decide) (by decide)
  · rw [ecallFork_eq hg]
    exact hword (by decide) (by decide)
  · rw [hpdata]
    exact fun hmem => not_apart_self (Nat.succ_pos _) ((hregion.resolve_left hg.2.2).2.2 _ hmem)
  · rw [hpdata, ecallFork_eq hg]
    refine ((forkStores_alters _ _ (hsize.trans_le (by decide))).word ?_).trans
      (forkRegion_size hpl hs0 hpcb hregion hg htext hdata)
    simp only [List.forall_mem_cons]
    have hparentRegion : (pcbSpan s0).Apart (regionSpan g.region) := hspan.1 s0 hs0
    refine ⟨?_, hparentRegion.part (by decide) (by decide), hparentRegion.part (by decide) (by decide), by simp⟩
    have hchild := hspan.2.symm.part (Nat.le_of_eq (Nat.zero_add pcbSize)) (j := memoryRegionSize) (b := 4)
      (by decide)
    rwa [part_zero] at hchild
  · rw [ecallFork_eq hg]
    refine (forkStores_child_ppid hap).trans (((memcpy_alters _ _ _ _).byte ?_).trans (hparent (by decide)))
    refine List.forall_mem_singleton.2 ?_
    rw [← part_zero, hsize]
    exact hap.symm.part (by decide) (by decide)
  · rw [ecallFork_eq hg]
    exact forkStores_parent_a0 hap
  · intro p hp hne i hi
    refine (ecallFork_alters hg (hsize.trans_le (by decide))).byte ?_
    have hapart := hpl.apart hs0 hp hne.symm
    simp only [forkSpans, List.forall_mem_cons]
    exact ⟨(hpl.outside_count (hpl.regionOutside htext)).spares hi p hp, hspan.1.spares hi p hp,
      (hpl.outside_of_grants hpcb (by decide)).spares hi p hp, hapart.part (by decide) hi,
      hapart.part (by decide) hi, by simp⟩

end Copy

/-! ## The id -/

/-- **What `getpid` reads** has the state in its highest byte. -/
theorem getpid_status (hcur : t.currentPcb = child) (hne : child ≠ null) :
    byteOf (word (t.ecallGetpid child).mem child tfA0) 3 = t.status child := by
  rw [ecallGetpid, hcur, if_neg hne, word_setWord, word, byteOf_load32 _ _ (by decide), BitVec.add_assoc]
  rfl

end Kernel

open Kernel

/-- **A fork never does what it is for**, whatever it gets. -/
theorem fork_semantics_never (s : Kernel) (s0 : Ptr) (g : ForkGrants) (hg : g.Enough) :
    ¬ ForkSemantics s (s.ecallFork s0 g) s0 g.pcb := by
  intro h
  have hreported := h.getpid { s.ecallFork s0 g with currentPcb := g.pcb } rfl fun _ _ _ => rfl
  have hstatus := getpid_status (t := { s.ecallFork s0 g with currentPcb := g.pcb }) rfl hg.2.1
  have hready : (s.ecallFork s0 g).status g.pcb = stateReady := by
    rw [status, ecallFork_eq hg]
    exact forkStores_child_status
  -- the parent has got a byte
  have hbyte : ∀ b : Byte, byteOf (b.setWidth 32) 3 = 0 := by decide
  rw [hreported, h.parent_a0, hbyte] at hstatus
  exact absurd (hstatus.trans hready) (by decide)

/-- The first process forks, with 164 in `a2`. -/
theorem fork_semantics_first : ¬ ForkSemantics forkRunning.ecall (forkDone 164) 0x1000 0x1100 :=
  fork_semantics_never forkRunning.ecall 0x1000 (forkGrants 164) ⟨by decide, by decide, by decide⟩

/-- It gets 3, the child's id; and that is not what the child is told. -/
theorem fork_getpid_differs : ¬ ∀ s g t, Reach 0x500 Booted (fun _ _ => True) s → s.Step 0x500 (.fork g) t →
    g.Enough → ForkSemantics s.ecall t s.currentPcb g.pcb := by
  intro h
  have hrun : Reach 0x500 Booted (fun _ _ => True) forkRunning :=
    forkRunning_reach (forkStarted_reach trivial trivial) trivial trivial
  have hfork := h _ _ _ hrun (forkDone_step 164) ⟨by decide, by decide, by decide⟩
  have hreported := hfork.getpid { forkDone 164 with currentPcb := 0x1100 } rfl fun _ _ _ => rfl
  exact absurd hreported (by decide +kernel)

end RiscyOS
