import RiscyOS.Arch.Frames
import RiscyOS.Fs.System

/-!
# Looking up a cluster in the table

`fat_calcualte_lba` and `get_next_cluster` against FAT32, where the entry of cluster `c` is the word at
byte `4 * c` of the table, less its four upper bits.

Both divide the number of the cluster by 512, as if entries were bytes, and take no bits away.  The
sector is right for the first 128 clusters only (`sdiv_512_eq_iff`), and even then it is handed to
`sd_start_read` instead of returned, unless it lies beyond the *number* of sectors of the table.  The
entry is taken from the wrong place in the sector, and delivered to the wrong place in the program:
`get_next_cluster` returns to the address that the number of the cluster is.  `fat_lookup_iff` is the
coincidence it takes.
-/

set_option autoImplicit false

namespace RiscyOS

open Memory Riscv Riscv.Image

/-! ## FAT32 -/

/-- The entry of cluster `c` in a table, upper bits and all: the little-endian word at byte `4 * c`. -/
def fatWord (fat : Nat → Byte) (c : Word) : Word :=
  fat (4 * c.toNat + 3) ++ fat (4 * c.toNat + 2) ++ fat (4 * c.toNat + 1) ++ fat (4 * c.toNat)

/-- The 28 bits of it that count. -/
def fatEntry (fat : Nat → Byte) (c : Word) : Word := fatWord fat c &&& 0x0fffffff

/-- The number of the sector of the table in which it is. -/
def fatSectorOf (c : Word) : Nat := 4 * c.toNat / 512

/-- Where the receive buffer is. -/
def rxRam : Word := spiBase + spiRxRam

/-- Sector `n` of the table is in the receive buffer. -/
def SectorLoaded (m : Mem) (fat : Nat → Byte) (n : Nat) : Prop :=
  ∀ i < 512, byte m rxRam i = fat (512 * n + i)

/-- Then the entry is there. -/
theorem SectorLoaded.word {m : Mem} {fat : Nat → Byte} {c : Word}
    (h : SectorLoaded m fat (fatSectorOf c)) : word m rxRam (4 * c.toNat % 512) = fatWord fat c := by
  have hbyte : ∀ k < 4, byte m rxRam (4 * c.toNat % 512 + k) = fat (4 * c.toNat + k) := by
    intro k hk
    rw [h _ (by omega), fatSectorOf]
    congr 1
    omega
  have hadd : ∀ k, m (rxRam + BitVec.ofNat 32 (4 * c.toNat % 512) + BitVec.ofNat 32 k) =
      byte m rxRam (4 * c.toNat % 512 + k) := by
    intro k
    rw [byte, BitVec.ofNat_add, BitVec.add_assoc]
  have h0 := (hadd 0).trans (hbyte 0 (by decide))
  rw [BitVec.add_zero] at h0
  rw [Memory.word, load32, fatWord]
  exact congrArg₂ _ (congrArg₂ _ (congrArg₂ _ ((hadd 3).trans (hbyte 3 (by decide)))
    ((hadd 2).trans (hbyte 2 (by decide)))) ((hadd 1).trans (hbyte 1 (by decide)))) h0

/-! ## The sector -/

/-- **Dividing by 512 finds the sector** of the first 128 clusters. -/
theorem sdiv_512_eq_iff (c : Word) : c.sdiv 512 = BitVec.ofNat 32 (fatSectorOf c) ↔ c.toNat < 128 := by
  have hlt : fatSectorOf c < 2 ^ 32 := by
    have hc := c.isLt
    rw [fatSectorOf]
    omega
  rw [← BitVec.toNat_inj, BitVec.toNat_ofNat, Nat.mod_eq_of_lt hlt, fatSectorOf]
  cases hmsb : c.msb with
  | false =>
    have hval : (c.sdiv 512).toNat = c.toNat / 512 := by
      rw [BitVec.sdiv_eq, hmsb]
      exact BitVec.toNat_udiv
    rw [hval]
    omega
  | true =>
    -- a negative quotient is next to the top of the address space, or zero
    have hc := c.isLt
    have hle : 2 ^ 32 ≤ 2 * c.toNat := BitVec.msb_eq_true_iff_two_mul_ge.1 hmsb
    have hval : (c.sdiv 512).toNat = (2 ^ 32 - (2 ^ 32 - c.toNat) % 2 ^ 32 / 512) % 2 ^ 32 := by
      rw [BitVec.sdiv_eq, hmsb]
      show (-((-c).udiv 512)).toNat = _
      rw [BitVec.toNat_neg, BitVec.udiv_eq, BitVec.toNat_udiv, BitVec.toNat_neg]
      rfl
    rw [hval]
    omega

/-- The sector to be read for cluster `c`. -/
def FsRunningInfo.entrySector (info : FsRunningInfo) (c : Word) : Word :=
  info.fatBeginLba + BitVec.ofNat 32 (fatSectorOf c)

/-- **`fat_calcualte_lba` returns it** if the cluster is one of the first 128 and the table begins beyond
its own size, or if the card answers the read with just that number. -/
theorem fatCalcualteLba_eq_iff (info : FsRunningInfo) (r1 c : Word) :
    info.fatCalcualteLba r1 c = info.entrySector c ↔
      c.toNat < 128 ∧ info.fatSectorCount.slt info.fatBeginLba ∨
        ¬ info.fatSectorCount.slt (info.fatSector c) ∧ r1 = info.entrySector c := by
  have hsector : info.fatSector c = info.entrySector c ↔ c.toNat < 128 := by
    rw [FsRunningInfo.fatSector, FsRunningInfo.entrySector, BitVec.add_comm, BitVec.add_right_inj]
    exact sdiv_512_eq_iff c
  by_cases hslt : info.fatSectorCount.slt (info.fatSector c)
  · have hnone : info.fatCalcualteLba r1 c = info.fatSector c := by
      rw [FsRunningInfo.fatCalcualteLba, FsRunningInfo.strayRead, if_pos hslt]
      exact if_neg Bool.false_ne_true
    rw [hnone, hsector]
    constructor
    · intro hlt
      refine Or.inl ⟨hlt, ?_⟩
      have hzero : info.fatSector c = info.fatBeginLba := by
        rw [hsector.2 hlt, FsRunningInfo.entrySector, show fatSectorOf c = 0 by rw [fatSectorOf]; omega]
        exact BitVec.add_zero _
      rwa [hzero] at hslt
    · rintro (⟨hlt, -⟩ | ⟨hno, -⟩)
      · exact hlt
      · exact absurd hslt hno
  · have hsome : info.fatCalcualteLba r1 c = r1 := by
      rw [FsRunningInfo.fatCalcualteLba, FsRunningInfo.strayRead, if_neg hslt]
      exact if_pos rfl
    rw [hsome]
    constructor
    · exact fun hr1 => Or.inr ⟨hslt, hr1⟩
    · rintro (⟨hlt, hbegin⟩ | ⟨-, hr1⟩)
      · -- a sector beyond the size of the table after all
        refine absurd ?_ hslt
        rwa [hsector.2 hlt, FsRunningInfo.entrySector, show fatSectorOf c = 0 by rw [fatSectorOf]; omega,
          BitVec.add_zero]
      · exact hr1

/-! ## The lookup -/

/-- **A cluster is looked up**: the sector of its entry is returned, and with that sector in the receive
buffer its entry is returned to the caller. -/
structure FatLookup (info : FsRunningInfo) (r1 : Word) (fat : Nat → Byte) (img : Image Fn Sym) (s : Hart) :
    Prop where
  lba : info.fatCalcualteLba r1 (s.get .a0) = info.entrySector (s.get .a0)
  next : ∃ e, img.Exits getNextClusterCode getNextClusterCode s e ∧ e.target = none ∧
    e.hart.get .ra = s.get .ra ∧ e.hart.get .a0 = fatEntry fat (s.get .a0)

/-- **Exactly then is a cluster looked up.** -/
theorem fat_lookup_iff (info : FsRunningInfo) (r1 : Word) (fat : Nat → Byte) (img : Image Fn Sym) (s : Hart)
    (hcalls : img.CallsReturn 8 getNextClusterCode getNextClusterCode s)
    (hload : SectorLoaded (afterSdTailRead img s).mem fat (fatSectorOf (s.get .a0))) :
    FatLookup info r1 fat img s ↔
      ((s.get .a0).toNat < 128 ∧ info.fatSectorCount.slt info.fatBeginLba ∨
        ¬ info.fatSectorCount.slt (info.fatSector (s.get .a0)) ∧ r1 = info.entrySector (s.get .a0)) ∧
      s.get .ra = s.get .a0 ∧
      word (afterSdTailRead img s).mem (rxRam + (s.get .a0).srem 512) 0 =
        word (afterSdTailRead img s).mem rxRam (4 * (s.get .a0).toNat % 512) &&& 0x0fffffff := by
  obtain ⟨e, he, htarget, -, hra, ha0⟩ := getNextCluster_exits hcalls
  rw [← fatCalcualteLba_eq_iff, hload.word]
  constructor
  · rintro ⟨hlba, e', he', -, hra', ha0'⟩
    obtain rfl := he.unique he'
    exact ⟨hlba, hra'.symm.trans hra, ha0.symm.trans ha0'⟩
  · rintro ⟨hlba, hback, hword⟩
    exact ⟨hlba, e, he, htarget, hra.trans hback.symm, ha0.trans hword⟩

/-- A kernel in which `sd_tail_read` leaves everything as it is. -/
def tailImage : Image Fn Sym where
  symbol _ := 0x800
  point n := 0x400 - BitVec.ofNat 32 (4 * n)
  callee _ s := s

theorem tailImage_callsReturn (frame : Nat) (code a : Code) (s : Hart) :
    tailImage.CallsReturn frame code a s := by
  intro f rest t _
  exact ⟨rfl, rfl, fun x _ => rfl⟩

/-- `get_next_cluster` is called for cluster `c` from the address `ra`, with an empty table. -/
def lookupHart (c ra : Word) : Hart where
  reg
    | .a0 => c
    | .ra => ra
    | .sp => 0x3000
    | _ => 0
  mem _ := 0

/-- A table of a thousand sectors, from sector 2048 on. -/
def lookupInfo : FsRunningInfo where
  sectorsPerCluster := 8
  fatBeginLba := 2048
  clusterBeginLba := 4048
  fatSectorCount := 1000
  rootDirFirstCluster := 2

/-- The stack is elsewhere, so the buffer is as it was. -/
theorem lookupHart_loaded (c ra : Word) :
    SectorLoaded (afterSdTailRead tailImage (lookupHart c ra)).mem (fun _ => 0) (fatSectorOf c) := by
  intro i hi
  have hapart : (Span.mk ((0x3000 : Word) + -8) 8).Apart ⟨rxRam, 512⟩ := by decide
  show byte (setWord (setWord (fun _ => 0) (0x3000 + -8) 0 c) (0x3000 + -8) 4 ra) rxRam i = 0
  rw [byte_setWord_apart hapart (by decide) hi, byte_setWord_apart hapart (by decide) hi]
  rfl

/-- Cluster 4 is looked up, by a caller at address 4. -/
theorem fat_lookup_four : FatLookup lookupInfo 0 (fun _ => 0) tailImage (lookupHart 4 4) :=
  (fat_lookup_iff lookupInfo 0 (fun _ => 0) tailImage (lookupHart 4 4) (tailImage_callsReturn _ _ _ _)
    (lookupHart_loaded 4 4)).2 ⟨Or.inl (by decide), by decide, by decide +kernel⟩

/-- Cluster 200 has its entry in the second sector of the table, and the first is returned. -/
theorem fat_lookup_misses : lookupInfo.fatCalcualteLba 0 200 ≠ lookupInfo.entrySector 200 ∧
    ¬ FatLookup lookupInfo 0 (fun _ => 0) tailImage (lookupHart 200 0x500) := by
  have hlba : lookupInfo.fatCalcualteLba 0 200 ≠ lookupInfo.entrySector 200 := by decide
  exact ⟨hlba, fun h => hlba h.lba⟩

end RiscyOS
