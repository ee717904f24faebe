import RiscyOS.Fs.System

/-!
# The divisor of a seek

`fat_init` of `kernel/fs/fs.s` reads two sectors at boot, checks some of their fields, and fills
`fs_running_info` from others; when a check fails, it returns just the same.  Much later
`seek_decompose` divides by the number of bytes in a cluster.  Here are the divisors of everything that
the file system runs, function by function as in `RiscyOS.Fs.Effects`, and where they come from.

The number of sectors in a cluster is not among the fields that are checked, and nothing keeps the file
system from running after a check has failed (`fatInit_divisors_iff`).
-/

set_option autoImplicit false

namespace RiscyOS

open Memory

/-! ## `fat_init` -/

/-- `lbu`, from a sector in the receive buffer. -/
def lbu (b : Sector) (i : Nat) : Word := (b i).setWidth 32

/-- `lhu`. -/
def lhu (b : Sector) (i : Nat) : Word := (b (i + 1) ++ b i).setWidth 32

/-- `lw`. -/
def lw (b : Sector) (i : Nat) : Word := b (i + 3) ++ b (i + 2) ++ b (i + 1) ++ b i

/-! The offsets and values of `include/mbr.inc`, `include/partition.inc` and `include/bpb.inc`. -/

def partitionEntry1 : Nat := 446
def bootSignature : Nat := 510
def mbrSignature : Word := 0xaa55

def partitionStatus : Nat := 0
def partitionType : Nat := 4
def partitionLbaFirst : Nat := 8
def partitionStatusActive : Word := 0x80
def partitionTypeFat : Word := 0xB
def partitionTypeFatx : Word := 0xC

def bpbBytsPerSec : Nat := 11
def bpbSecPerClus : Nat := 13
def bpbRsvdSecCnt : Nat := 14
def bpbNumFATs : Nat := 16
def bpbFATSz32 : Nat := 36
def bpbRootClus : Nat := 44
def bsSign : Nat := 510
def fatBpbSignature : Word := 0xaa55

/-- Where the first partition begins, from the boot record. -/
def partitionBegin (mbr : Sector) : Word :=
  let t1 := partitionEntry1
  lhu mbr (t1 + partitionLbaFirst) + lhu mbr (t1 + partitionLbaFirst + 2) <<< 16

/-- `fs_running_info` as it is assembled. -/
def fsRunningInfoZero : FsRunningInfo := ⟨0, 0, 0, 0, 0⟩

/-- The run time record, from the parameter block of a partition. -/
def fatFill (partitionBegin : Word) (bpb : Sector) : FsRunningInfo :=
  let t2 := partitionBegin
  let t3 := lhu bpb bpbRsvdSecCnt
  let t4 := lbu bpb bpbNumFATs
  let t5 := lw bpb bpbFATSz32
  let t6 := lw bpb bpbRootClus
  let t0 := t2 + t3
  { sectorsPerCluster := bpb bpbSecPerClus
    fatBeginLba := t0
    clusterBeginLba := t0 + t4 * t5
    fatSectorCount := t5
    rootDirFirstCluster := t6 }

/-- `fat_init`, on what is in the sectors of the card.  The labels `mbr_invalid` and `bpb_invalid` are at
the end of it. -/
def fatInit (disk : Word → Sector) (fsRunningInfo : FsRunningInfo) : FsRunningInfo :=
  let mbr := disk 0
  let t1 := partitionEntry1
  if lhu mbr bootSignature ≠ mbrSignature then fsRunningInfo
  else if lbu mbr (t1 + partitionStatus) ≠ partitionStatusActive then fsRunningInfo
  else if 1 < lbu mbr (t1 + partitionType) - partitionTypeFat then fsRunningInfo
  else
    let bpb := disk (partitionBegin mbr)
    if fatBpbSignature ≠ lhu bpb bsSign then fsRunningInfo
    else if (512 : Word) ≠ lbu bpb bpbBytsPerSec + lbu bpb (bpbBytsPerSec + 1) <<< 8 then fsRunningInfo
    else fatFill (partitionBegin mbr) bpb

/-- **What is checked**: an active FAT partition, with sectors of 512 bytes. -/
structure FatAccepted (disk : Word → Sector) : Prop where
  signature : lhu (disk 0) bootSignature = mbrSignature
  active : lbu (disk 0) (partitionEntry1 + partitionStatus) = partitionStatusActive
  type : lbu (disk 0) (partitionEntry1 + partitionType) = partitionTypeFat ∨
    lbu (disk 0) (partitionEntry1 + partitionType) = partitionTypeFatx
  bpbSignature : lhu (disk (partitionBegin (disk 0))) bsSign = fatBpbSignature
  bytesPerSector : lhu (disk (partitionBegin (disk 0))) bpbBytsPerSec = 512

section FatInit

variable {disk : Word → Sector} {info : FsRunningInfo}

/-- One unsigned comparison for two types. -/
theorem one_lt_sub_iff (x : Word) :
    ¬ 1 < x - partitionTypeFat ↔ x = partitionTypeFat ∨ x = partitionTypeFatx := by
  rw [partitionTypeFat, partitionTypeFatx]
  bv_omega

/-- A half, put together from its bytes. -/
theorem lhu_eq (b : Sector) (i : Nat) : lhu b i = lbu b i + lbu b (i + 1) <<< 8 := by
  have h0 := (b i).isLt
  have h1 := (b (i + 1)).isLt
  apply BitVec.eq_of_toNat_eq
  rw [lhu, lbu, lbu, BitVec.toNat_add, BitVec.toNat_shiftLeft, BitVec.toNat_setWidth,
    BitVec.toNat_setWidth, BitVec.toNat_setWidth, BitVec.toNat_append,
    ← Nat.shiftLeft_add_eq_or_of_lt h0, Nat.shiftLeft_eq, Nat.shiftLeft_eq]
  omega

theorem fatInit_of_accepted (h : FatAccepted disk) :
    fatInit disk info = fatFill (partitionBegin (disk 0)) (disk (partitionBegin (disk 0))) := by
  rw [fatInit]
  dsimp only
  rw [if_neg (not_not.2 h.signature), if_neg (not_not.2 h.active),
    if_neg ((one_lt_sub_iff _).2 h.type), if_neg (not_not.2 h.bpbSignature.symm), ← lhu_eq,
    if_neg (not_not.2 h.bytesPerSector.symm)]

/-- When a check fails, the record stays as it was. -/
theorem fatInit_of_not_accepted (h : ¬ FatAccepted disk) : fatInit disk info = info := by
  rw [fatInit]
  dsimp only
  split_ifs with hsignature hactive htype hbpb hbytes
  · rfl
  · rfl
  · rfl
  · rfl
  · rfl
  · refine absurd ⟨not_not.1 hsignature, not_not.1 hactive, (one_lt_sub_iff _).1 htype,
      (not_not.1 hbpb).symm, ?_⟩ h
    rw [lhu_eq]
    exact (not_not.1 hbytes).symm

/-- **The sectors of a cluster** after boot. -/
theorem fatInit_sectorsPerCluster_ne_zero :
    (fatInit disk fsRunningInfoZero).sectorsPerCluster ≠ 0 ↔
      FatAccepted disk ∧ disk (partitionBegin (disk 0)) bpbSecPerClus ≠ 0 := by
  by_cases h : FatAccepted disk
  · rw [fatInit_of_accepted h]
    exact ⟨fun hne => ⟨h, hne⟩, fun hne => hne.2⟩
  · rw [fatInit_of_not_accepted h]
    exact ⟨fun hne => absurd rfl hne, fun hacc => absurd hacc.1 h⟩

end FatInit

/-! ## What is divided by -/

/-- `bytes_per_cluster`, in `seek_decompose`. -/
def bytesPerCluster (d : FatDriver) : Word := 512 * d.sectorsPerCluster.setWidth 32

/-- `fs_seek_submit`, where the target and then the offset are decomposed. -/
def fsSeekSubmitDivisors (d : FatDriver) (file : Ptr) (targetOffset : Word) (w : FsWorld) : List Word :=
  if (w.file file).fileSize < targetOffset then [] else [bytesPerCluster d, bytesPerCluster d]

/-- `fs_seek_whence`. -/
def fsSeekWhenceDivisors (d : FatDriver) (file : Ptr) (offset : Word) (whence : Option SeekWhence)
    (w : FsWorld) : List Word :=
  match seekTarget (w.file file) offset whence with
  | some target => fsSeekSubmitDivisors d file target w
  | none => []

/-- `fs_read_step`. -/
def fsReadStepDivisors (d : FatDriver) (ctx : Ptr) (status : Int) (w : FsWorld) : List Word :=
  let c := w.readCtx ctx
  if status ≠ 0 then [] else
    match c.state with
    | .copyContents =>
      let f := w.file c.file
      let bytesToCopy : Word := if 512 ≤ f.currentByte + c.bytesRemaining then 512 - f.currentByte
        else c.bytesRemaining
      if c.bytesRemaining - bytesToCopy = 0 then []
      else fsSeekWhenceDivisors d c.file bytesToCopy (some .cur) w
    | .loadContents | .seekRead | .done | .error => []

/-- `elf_step`. -/
def elfStepDivisors (d : FatDriver) (ctx : Ptr) (status : Int) (w : FsWorld) : List Word :=
  if status ≠ 0 then [] else
    match (w.elfCtx ctx).state with
    | .readingHeader =>
      let hdr := loadEhdr w.mem (elfHeader ctx)
      if elfValidateHeader hdr = 0 then []
      else fsSeekWhenceDivisors d (elfFile ctx) hdr.ePhoff (some .set) w
    | .readPheader =>
      let ph := loadPhdr w.mem (elfPheader ctx)
      if ph.pType ≠ ptLoad ∨ w.kmallocRegion.1 = null ∨ w.ualloc.1 = null then []
      else fsSeekWhenceDivisors d (elfFile ctx) ph.pOffset (some .set) w
    | .opening | .loadPheader | .seekPcontent | .loadPcontent | .closing | .done | .error => []

/-- A step function. -/
def fsCodeDivisors (d : FatDriver) (k : FsClosure) (status : Int) (w : FsWorld) : List Word :=
  match k.1 with
  | .fsReadStep => fsReadStepDivisors d k.2 status w
  | .elfStep => elfStepDivisors d k.2 status w
  | .fsOpenStep | .fsSeekStep | .client => []

/-- A function called by a client. -/
def fsOpDivisors (d : FatDriver) (op : FsOp) (w : FsWorld) : List Word :=
  match op with
  | .seek file offset whence _ => fsSeekWhenceDivisors d file offset whence w
  | .open .. | .read .. | .makeFile | .close .. | .load .. => []

section Divisors

variable (info : FsRunningInfo) (getNextCluster : Sector → Word → Word)

/-- An event. -/
def FsEvent.divisors (s : FsSys) : FsEvent → List Word
  | .start op a r1 _ => fsOpDivisors (info.driver getNextCluster r1) op (a.stock s.world)
  | .call a r1 _ =>
    match s.due with
    | some k => fsCodeDivisors (info.driver getNextCluster r1) k.1 k.2 (a.stock s.world)
    | none => []
  | .irq | .spurious | .pump | .test _ | .ret _ => []

/-- The event can come now, as in `fsStep`. -/
def FsEvent.Comes (s : FsSys) : FsEvent → Prop
  | .start op a _ _ => s.due = none ∧ s.io.pump ≠ .loop ∧ op.Allowed s ∧ a.Fresh s
  | .call a _ _ => a.Fresh s
  | .irq | .spurious | .pump | .test _ | .ret _ => True

/-- **Nothing is divided by zero**, by any function, whatever has happened before. -/
def NoZeroDivisor (disk : Word → Sector) : Prop :=
  ∀ s, FsReach info getNextCluster disk (fun _ _ => True) s → ∀ e : FsEvent, e.Comes s →
    ∀ x ∈ e.divisors info getNextCluster s, x ≠ 0

end Divisors

section Bounds

variable {d : FatDriver} {w : FsWorld} {x : Word}

theorem bytesPerCluster_ne_zero : bytesPerCluster d ≠ 0 ↔ d.sectorsPerCluster ≠ 0 := by
  have hlt := d.sectorsPerCluster.isLt
  have hval : (bytesPerCluster d).toNat = 512 * d.sectorsPerCluster.toNat := by
    rw [bytesPerCluster, BitVec.toNat_mul, BitVec.toNat_setWidth]
    show 512 * _ % _ = _
    omega
  have hzero : bytesPerCluster d = 0 ↔ d.sectorsPerCluster = 0 := by
    rw [← BitVec.toNat_inj, ← BitVec.toNat_inj, hval]
    show _ = 0 ↔ _ = 0
    omega
  exact not_congr hzero

theorem eq_of_mem_fsSeekWhenceDivisors {file : Ptr} {offset : Word} {whence : Option SeekWhence}
    (h : x ∈ fsSeekWhenceDivisors d file offset whence w) : x = bytesPerCluster d := by
  rw [fsSeekWhenceDivisors] at h
  split at h
  · rw [fsSeekSubmitDivisors] at h
    split at h
    · exact absurd h List.not_mem_nil
    · simpa using h
  · exact absurd h List.not_mem_nil

theorem eq_of_mem_fsOpDivisors {op : FsOp} (h : x ∈ fsOpDivisors d op w) : x = bytesPerCluster d := by
  cases op with
  | seek file offset whence ctx => exact eq_of_mem_fsSeekWhenceDivisors h
  | «open» | read | makeFile | close | load => exact absurd h List.not_mem_nil

theorem eq_of_mem_fsReadStepDivisors {ctx : Ptr} {status : Int}
    (h : x ∈ fsReadStepDivisors d ctx status w) : x = bytesPerCluster d := by
  have hcopied : ∀ bytesToCopy : Word, x ∈ (if (w.readCtx ctx).bytesRemaining - bytesToCopy = 0 then []
      else fsSeekWhenceDivisors d (w.readCtx ctx).file bytesToCopy (some .cur) w) →
        x = bytesPerCluster d := by
    intro bytesToCopy h
    split at h
    · exact absurd h List.not_mem_nil
    · exact eq_of_mem_fsSeekWhenceDivisors h
  rw [fsReadStepDivisors] at h
  dsimp only at h
  split at h
  · exact absurd h List.not_mem_nil
  · split at h
    · exact hcopied _ h
    all_goals exact absurd h List.not_mem_nil

theorem eq_of_mem_elfStepDivisors {ctx : Ptr} {status : Int}
    (h : x ∈ elfStepDivisors d ctx status w) : x = bytesPerCluster d := by
  rw [elfStepDivisors] at h
  split at h
  · exact absurd h List.not_mem_nil
  · dsimp only at h
    split at h
    · split at h
      · exact absurd h List.not_mem_nil
      · exact eq_of_mem_fsSeekWhenceDivisors h
    · split at h
      · exact absurd h List.not_mem_nil
      · exact eq_of_mem_fsSeekWhenceDivisors h
    all_goals exact absurd h List.not_mem_nil

theorem eq_of_mem_fsCodeDivisors {k : FsClosure} {status : Int}
    (h : x ∈ fsCodeDivisors d k status w) : x = bytesPerCluster d := by
  obtain ⟨callback, ctx⟩ := k
  cases callback with
  | fsReadStep => exact eq_of_mem_fsReadStepDivisors h
  | elfStep => exact eq_of_mem_elfStepDivisors h
  | fsOpenStep | fsSeekStep | client => exact absurd h List.not_mem_nil

/-- **The divisor is always the same**, the bytes of a cluster. -/
theorem eq_of_mem_divisors {info : FsRunningInfo} {getNextCluster : Sector → Word → Word} {s : FsSys}
    {e : FsEvent} (h : x ∈ e.divisors info getNextCluster s) :
    ∃ r1, x = bytesPerCluster (info.driver getNextCluster r1) := by
  cases e with
  | start op a r1 resp => exact ⟨r1, eq_of_mem_fsOpDivisors h⟩
  | call a r1 resp =>
    rw [FsEvent.divisors] at h
    split at h
    · exact ⟨r1, eq_of_mem_fsCodeDivisors h⟩
    · exact absurd h List.not_mem_nil
  | irq | spurious | pump | test | ret => exact absurd h List.not_mem_nil

end Bounds

/-! ## From boot on -/

/-- After boot, with a file made at `0x1000`. -/
def bootSysFile : FsSys :=
  { bootSys with
    world := (supplyAt 0x1000).stock emptyWorld
    heap := ⟨[(.file, 0x1000)], []⟩ }

section Boot

variable {info : FsRunningInfo} {getNextCluster : Sector → Word → Word} {disk : Word → Sector}

theorem bootSysFile_reach : FsReach info getNextCluster disk (fun _ _ => True) bootSysFile := by
  have hstart : (supplyAt 0x1000).Fresh bootSys := by decide
  have hstep : fsStep info getNextCluster disk (.start .makeFile (supplyAt 0x1000) 0 .transfer) bootSys =
      some bootSysFile := by
    rw [fsStep, if_pos ⟨rfl, nofun, trivial, hstart⟩]
    rfl
  exact (FsReach.init _ _ _ _).step trivial hstep

/-- A seek of the file to its beginning. -/
def seekToStart : FsEvent := .start (.seek 0x1000 0 (some .set) 0) (supplyAt 0x2000) 0 .transfer

theorem seekToStart_comes : seekToStart.Comes bootSysFile := by
  refine ⟨rfl, nofun, trivial, ?_⟩
  decide

theorem seekToStart_divisors : seekToStart.divisors info getNextCluster bootSysFile =
    [bytesPerCluster (info.driver getNextCluster 0), bytesPerCluster (info.driver getNextCluster 0)] := by
  have hinside : ¬ (bootSysFile.world.file 0x1000).fileSize < 0 := BitVec.not_lt_zero
  show fsSeekSubmitDivisors _ 0x1000 0 bootSysFile.world = _
  rw [fsSeekSubmitDivisors, if_neg hinside]

/-- **Nothing is divided by zero if and only if** both sectors are accepted, and clusters have sectors. -/
theorem fatInit_divisors_iff (getNextCluster : Sector → Word → Word) (disk : Word → Sector) :
    NoZeroDivisor (fatInit disk fsRunningInfoZero) getNextCluster disk ↔
      FatAccepted disk ∧ disk (partitionBegin (disk 0)) bpbSecPerClus ≠ 0 := by
  rw [← fatInit_sectorsPerCluster_ne_zero]
  constructor
  · intro h
    have hseek := h bootSysFile bootSysFile_reach seekToStart seekToStart_comes _
      (seekToStart_divisors ▸ List.mem_cons_self)
    exact bytesPerCluster_ne_zero.1 hseek
  · intro hne s _ e _ x hx
    obtain ⟨r1, rfl⟩ := eq_of_mem_divisors hx
    exact bytesPerCluster_ne_zero.2 hne

end Boot

/-- A card on which every sector has the signature, and nothing else is right. -/
def emptyCard : Word → Sector := fun _ => Function.update (Function.update (fun _ => 0) 510 0x55) 511 0xaa

/-- A card with a FAT32 partition at sector 1, which says that its clusters have no sectors. -/
def clusterlessCard (lba : Word) : Sector :=
  if lba = 0 then Function.update (Function.update (Function.update (emptyCard lba) 446 0x80) 450 0xB) 454 1
  else Function.update (emptyCard lba) 12 2

/-- That card is accepted, and the first seek divides by zero. -/
theorem fatInit_divisor_zero : ¬ ∀ (getNextCluster : Sector → Word → Word) (disk : Word → Sector),
    NoZeroDivisor (fatInit disk fsRunningInfoZero) getNextCluster disk := by
  intro h
  have hne := h (fun _ _ => 0) clusterlessCard bootSysFile bootSysFile_reach seekToStart seekToStart_comes
    0 (by decide +kernel)
  exact hne rfl

end RiscyOS
