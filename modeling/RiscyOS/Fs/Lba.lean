import RiscyOS.Fs.System
import RiscyOS.Lib.Riscv

/-!
# Clusters and sectors

`cluster_to_lba`, `lba_to_cluster` and `lba_to_sector` of `kernel/fs/fs.s`, register by register.  The
first two are inverse to each other as long as nothing overflows.  The third calls both, to get from a
sector to the start of its cluster, and takes the difference; but it keeps the sector in `t3` and
subtracts from `s0`, which is the caller's (`lba_inverse_iff`).
-/

set_option autoImplicit false

namespace RiscyOS

open Memory Riscv

/-! ## The routines

The offsets are those of `include/fs_running_info.inc`. -/

def fatBeginLbaOffset : Nat := 0
def fatSectorCountOffset : Nat := 4
def clusterBeginLbaOffset : Nat := 8
def rootDirFirstClusterOffset : Nat := 12
def sectorsPerClusterOffset : Nat := 16
def fsRunInfoStructSize : Nat := 20

/-- The record at `fs_running_info`. -/
def fsRunningInfoAt (m : Mem) (p : Word) : FsRunningInfo where
  sectorsPerCluster := byte m p sectorsPerClusterOffset
  fatBeginLba := word m p fatBeginLbaOffset
  clusterBeginLba := word m p clusterBeginLbaOffset
  fatSectorCount := word m p fatSectorCountOffset
  rootDirFirstCluster := word m p rootDirFirstClusterOffset

/-- `div`. -/
def divWord (x y : Word) : Word := if y = 0 then -1 else x.sdiv y

/-- `lba_to_cluster`, as a function. -/
def FsRunningInfo.lbaToCluster (info : FsRunningInfo) (lba : Word) : Word :=
  divWord (lba - info.clusterBeginLba) (info.sectorsPerCluster.setWidth 32) + 2

namespace FsRoutines

/-- What the two conversions load: where the clusters begin, and how many sectors there are in one. -/
def loadInfo (fsRunningInfo : Word) (s : Hart) : Hart :=
  let s := s.set .t0 fsRunningInfo
  let s := s.set .t1 (word s.mem (s.get .t0) clusterBeginLbaOffset)
  s.set .t2 ((byte s.mem (s.get .t0) sectorsPerClusterOffset).setWidth 32)

/-- `cluster_to_lba`. -/
def clusterToLba (fsRunningInfo : Word) (s : Hart) : Hart :=
  let s := loadInfo fsRunningInfo s
  let s := s.set .a0 (s.get .a0 + -2)
  let s := s.set .a0 (s.get .a0 * s.get .t2)
  s.set .a0 (s.get .a0 + s.get .t1)

/-- `lba_to_cluster`. -/
def lbaToCluster (fsRunningInfo : Word) (s : Hart) : Hart :=
  let s := loadInfo fsRunningInfo s
  let s := s.set .a0 (s.get .a0 - s.get .t1)
  let s := s.set .a0 (divWord (s.get .a0) (s.get .t2))
  s.set .a0 (s.get .a0 + 2)

/-- `lba_to_sector`.  The two calls return to `ra₁` and `ra₂`. -/
def lbaToSector (fsRunningInfo ra₁ ra₂ : Word) (s : Hart) : Hart :=
  let s := s.set .sp (s.get .sp + -4)
  let s := s.store (setWord s.mem (s.get .sp) 0 (s.get .ra))
  let s := s.set .t3 (s.get .a0)
  let s := lbaToCluster fsRunningInfo (s.set .ra ra₁)
  let s := clusterToLba fsRunningInfo (s.set .ra ra₂)
  let s := s.set .a0 (s.get .s0 - s.get .a0)
  let s := s.set .ra (word s.mem (s.get .sp) 0)
  s.set .sp (s.get .sp + 4)

end FsRoutines

/-! ## What they return -/

section Routines

open FsRoutines

variable (info ra₁ ra₂ : Word) (s : Hart)

theorem clusterToLba_a0 : (FsRoutines.clusterToLba info s).get .a0 =
    (fsRunningInfoAt s.mem info).clusterToLba (s.get .a0) := by
  simp [FsRoutines.clusterToLba, loadInfo, Hart.get, Hart.set, FsRunningInfo.clusterToLba,
    fsRunningInfoAt, BitVec.sub_eq_add_neg]

theorem lbaToCluster_a0 : (FsRoutines.lbaToCluster info s).get .a0 =
    (fsRunningInfoAt s.mem info).lbaToCluster (s.get .a0) := by
  simp [FsRoutines.lbaToCluster, loadInfo, Hart.get, Hart.set, FsRunningInfo.lbaToCluster,
    fsRunningInfoAt]

theorem lbaToCluster_mem : (FsRoutines.lbaToCluster info s).mem = s.mem := rfl

/-- The conversions touch nothing but `t0`, `t1`, `t2` and `a0`. -/
theorem clusterToLba_frame {q : Reg} (hq : q ∉ [.t0, .t1, .t2, .a0]) :
    (FsRoutines.clusterToLba info s).get q = s.get q := by
  simp only [List.mem_cons, List.not_mem_nil, or_false, not_or] at hq
  obtain ⟨h0, h1, h2, ha⟩ := hq
  simp only [FsRoutines.clusterToLba, loadInfo, Hart.get_set_of_ne h0, Hart.get_set_of_ne h1,
    Hart.get_set_of_ne h2, Hart.get_set_of_ne ha]

theorem lbaToCluster_frame {q : Reg} (hq : q ∉ [.t0, .t1, .t2, .a0]) :
    (FsRoutines.lbaToCluster info s).get q = s.get q := by
  simp only [List.mem_cons, List.not_mem_nil, or_false, not_or] at hq
  obtain ⟨h0, h1, h2, ha⟩ := hq
  simp only [FsRoutines.lbaToCluster, loadInfo, Hart.get_set_of_ne h0, Hart.get_set_of_ne h1,
    Hart.get_set_of_ne h2, Hart.get_set_of_ne ha]

/-- A word of the stack is not part of the record. -/
theorem fsRunningInfoAt_setWord {m : Mem} {p v : Word}
    (h : (Span.mk p 4).Apart ⟨info, fsRunInfoStructSize⟩) :
    fsRunningInfoAt (setWord m p 0 v) info = fsRunningInfoAt m info := by
  have hword : ∀ i, i + 4 ≤ fsRunInfoStructSize → word (setWord m p 0 v) info i = word m info i :=
    fun i hi => word_setWord_apart h (le_refl 4) hi
  rw [fsRunningInfoAt, fsRunningInfoAt, hword _ (by decide), hword _ (by decide), hword _ (by decide),
    hword _ (by decide), byte_setWord_apart h (le_refl 4) (by decide)]

/-- The two calls of `lba_to_sector`: where the cluster of a sector starts. -/
theorem clusterStart_a0 : (FsRoutines.clusterToLba info
    ((FsRoutines.lbaToCluster info (s.set .ra ra₁)).set .ra ra₂)).get .a0 =
      (fsRunningInfoAt s.mem info).clusterToLba ((fsRunningInfoAt s.mem info).lbaToCluster (s.get .a0)) := by
  rw [clusterToLba_a0, Hart.mem_set, lbaToCluster_mem, Hart.mem_set, Hart.get_set_of_ne (by decide),
    lbaToCluster_a0, Hart.mem_set, Hart.get_set_of_ne (by decide)]

/-- **`lba_to_sector` returns a difference**, of `s0` and the start of the cluster. -/
theorem lbaToSector_a0 (h : (Span.mk (s.get .sp + -4) 4).Apart ⟨info, fsRunInfoStructSize⟩) :
    (lbaToSector info ra₁ ra₂ s).get .a0 = s.get .s0 -
      (fsRunningInfoAt s.mem info).clusterToLba
        ((fsRunningInfoAt s.mem info).lbaToCluster (s.get .a0)) := by
  obtain ⟨entry, hentry⟩ : ∃ t, t = ((s.set .sp (s.get .sp + -4)).store
      (setWord s.mem (s.get .sp + -4) 0 (s.get .ra))).set .t3 (s.get .a0) := ⟨_, rfl⟩
  have hmem : fsRunningInfoAt entry.mem info = fsRunningInfoAt s.mem info := by
    rw [hentry]
    exact fsRunningInfoAt_setWord info h
  have hs0 : entry.get .s0 = s.get .s0 := by rw [hentry]; rfl
  have ha0 : entry.get .a0 = s.get .a0 := by rw [hentry]; rfl
  have hstart := clusterStart_a0 info ra₁ ra₂ entry
  have hkept : (FsRoutines.clusterToLba info
      ((FsRoutines.lbaToCluster info (entry.set .ra ra₁)).set .ra ra₂)).get .s0 = entry.get .s0 := by
    rw [clusterToLba_frame _ _ (by decide), Hart.get_set_of_ne (by decide),
      lbaToCluster_frame _ _ (by decide), Hart.get_set_of_ne (by decide)]
  have hdiff : (lbaToSector info ra₁ ra₂ s).get .a0 = entry.get .s0 - (FsRoutines.clusterToLba info
      ((FsRoutines.lbaToCluster info (entry.set .ra ra₁)).set .ra ra₂)).get .a0 := by
    rw [← hkept, hentry]
    simp only [lbaToSector]
    rw [Hart.get_set_of_ne (by decide), Hart.get_set_of_ne (by decide), Hart.get_set_self (by decide)]
    congr 1
  rw [hdiff, hstart, hmem, hs0, ha0]

end Routines

/-! ## There and back -/

namespace FsRunningInfo

variable {info : FsRunningInfo} {c sector : Word}

/-- In numbers, without overflow. -/
theorem clusterToLba_toNat (hc : 2 ≤ c.toNat)
    (hlt : info.clusterBeginLba.toNat + (c.toNat - 2) * info.sectorsPerCluster.toNat < 2 ^ 32) :
    (info.clusterToLba c).toNat =
      info.clusterBeginLba.toNat + (c.toNat - 2) * info.sectorsPerCluster.toNat := by
  have htwo : (c - 2).toNat = c.toNat - 2 := by bv_omega
  have hwide : (info.sectorsPerCluster.setWidth 32).toNat = info.sectorsPerCluster.toNat := by
    have := info.sectorsPerCluster.isLt
    rw [BitVec.toNat_setWidth]
    omega
  rw [clusterToLba, BitVec.toNat_add, BitVec.toNat_mul, htwo, hwide, Nat.mod_eq_of_lt (by omega),
    Nat.mod_eq_of_lt (by omega), Nat.add_comm]

/-- **The cluster of a sector of a cluster.** -/
theorem lbaToCluster_clusterToLba (hc : 2 ≤ c.toNat)
    (hsector : sector.toNat < info.sectorsPerCluster.toNat)
    (hlt : info.clusterBeginLba.toNat + (c.toNat - 2) * info.sectorsPerCluster.toNat +
      sector.toNat < 2 ^ 31) : info.lbaToCluster (info.clusterToLba c + sector) = c := by
  have hlba := @clusterToLba_toNat info c hc (by omega)
  have hwide : (info.sectorsPerCluster.setWidth 32).toNat = info.sectorsPerCluster.toNat := by
    have := info.sectorsPerCluster.isLt
    rw [BitVec.toNat_setWidth]
    omega
  have hsub : (info.clusterToLba c + sector - info.clusterBeginLba).toNat =
      (c.toNat - 2) * info.sectorsPerCluster.toNat + sector.toNat := by
    rw [BitVec.toNat_sub, BitVec.toNat_add, hlba]
    omega
  have hne : info.sectorsPerCluster.setWidth 32 ≠ (0 : Word) := fun h => by
    have hzero := congrArg BitVec.toNat h
    rw [hwide] at hzero
    have : (0 : Word).toNat = 0 := rfl
    omega
  have hpos : ∀ x : Word, x.toNat < 2 ^ 31 → x.msb = false := fun x hx =>
    BitVec.msb_eq_false_iff_two_mul_lt.2 (by omega)
  have hdiv : ((info.clusterToLba c + sector - info.clusterBeginLba).sdiv
      (info.sectorsPerCluster.setWidth 32)).toNat = c.toNat - 2 := by
    rw [BitVec.sdiv_eq, hpos _ (by omega), hpos _ (by omega)]
    show (BitVec.udiv _ _).toNat = _
    rw [BitVec.udiv_eq, BitVec.toNat_udiv, hsub, hwide, Nat.mul_comm, Nat.mul_add_div (by omega),
      Nat.div_eq_of_lt hsector, Nat.add_zero]
  apply BitVec.eq_of_toNat_eq
  rw [lbaToCluster, divWord, if_neg hne, BitVec.toNat_add, hdiv]
  have := c.isLt
  have : (2 : Word).toNat = 2 := rfl
  omega

end FsRunningInfo

/-- **The conversions are inverse**: from sector `sector` of cluster `c` the cluster is found again, and
the sector. -/
structure LbaInverse (info ra₁ ra₂ : Word) (s : Hart) (c sector : Word) : Prop where
  cluster : (FsRoutines.lbaToCluster info
    (s.set .a0 ((FsRoutines.clusterToLba info (s.set .a0 c)).get .a0 + sector))).get .a0 = c
  sector : (FsRoutines.lbaToSector info ra₁ ra₂
    (s.set .a0 ((FsRoutines.clusterToLba info (s.set .a0 c)).get .a0 + sector))).get .a0 = sector

/-- **They are inverse if and only if `s0` happens to hold the sector that is asked about**, for every
layout, every cluster and every sector of it, and whatever else is in the registers. -/
theorem lba_inverse_iff (info ra₁ ra₂ : Word) (s : Hart) (c sector : Word) (hc : 2 ≤ c.toNat)
    (hsector : sector.toNat < (fsRunningInfoAt s.mem info).sectorsPerCluster.toNat)
    (hlt : (fsRunningInfoAt s.mem info).clusterBeginLba.toNat +
      (c.toNat - 2) * (fsRunningInfoAt s.mem info).sectorsPerCluster.toNat + sector.toNat < 2 ^ 31)
    (hstack : (Span.mk (s.get .sp + -4) 4).Apart ⟨info, fsRunInfoStructSize⟩) :
    LbaInverse info ra₁ ra₂ s c sector ↔
      s.get .s0 = (fsRunningInfoAt s.mem info).clusterToLba c + sector := by
  have hlba : (FsRoutines.clusterToLba info (s.set .a0 c)).get .a0 =
      (fsRunningInfoAt s.mem info).clusterToLba c := by
    rw [clusterToLba_a0, Hart.mem_set, Hart.get_set_self (by decide)]
  have hback := FsRunningInfo.lbaToCluster_clusterToLba hc hsector hlt
  have hfirst : (FsRoutines.lbaToCluster info
      (s.set .a0 ((FsRoutines.clusterToLba info (s.set .a0 c)).get .a0 + sector))).get .a0 = c := by
    rw [lbaToCluster_a0, Hart.mem_set, Hart.get_set_self (by decide), hlba, hback]
  have hsecond : (FsRoutines.lbaToSector info ra₁ ra₂
      (s.set .a0 ((FsRoutines.clusterToLba info (s.set .a0 c)).get .a0 + sector))).get .a0 =
        s.get .s0 - (fsRunningInfoAt s.mem info).clusterToLba c := by
    rw [lbaToSector_a0, Hart.mem_set, Hart.get_set_self (by decide), hlba, hback,
      Hart.get_set_of_ne (by decide)]
    rwa [Hart.get_set_of_ne (by decide)]
  have hsub : s.get .s0 - (fsRunningInfoAt s.mem info).clusterToLba c = sector ↔
      s.get .s0 = (fsRunningInfoAt s.mem info).clusterToLba c + sector := by
    rw [BitVec.sub_eq_iff_eq_add, BitVec.add_comm]
  rw [← hsub, ← hsecond]
  exact ⟨fun h => h.sector, fun h => ⟨hfirst, h⟩⟩

/-- A hart with three sectors to the cluster, and the clusters from sector 100 on. -/
def lbaHart (s0 : Word) : Hart where
  reg r := if r = .s0 then s0 else if r = .sp then 0x3000 else 0
  mem := setByte (setWord (fun _ => 0) 0x800 clusterBeginLbaOffset 100) 0x800 sectorsPerClusterOffset 3

/-- The last sector of cluster 4, with its address in `s0`. -/
theorem lba_inverse_lucky : LbaInverse 0x800 0x400 0x404 (lbaHart 108) 4 2 :=
  (lba_inverse_iff 0x800 0x400 0x404 (lbaHart 108) 4 2 (by decide) (by decide) (by decide)
    (by decide)).2 (by decide)

/-- With another value there, the sector is lost. -/
theorem lba_to_sector_misses : ¬ ∀ (info ra₁ ra₂ : Word) (s : Hart) (c sector : Word), 2 ≤ c.toNat →
    sector.toNat < (fsRunningInfoAt s.mem info).sectorsPerCluster.toNat →
    (fsRunningInfoAt s.mem info).clusterBeginLba.toNat +
      (c.toNat - 2) * (fsRunningInfoAt s.mem info).sectorsPerCluster.toNat + sector.toNat < 2 ^ 31 →
    (Span.mk (s.get .sp + -4) 4).Apart ⟨info, fsRunInfoStructSize⟩ →
    LbaInverse info ra₁ ra₂ s c sector := by
  intro h
  have hsector := (h 0x800 0x400 0x404 (lbaHart 0) 4 2 (by decide) (by decide) (by decide)
    (by decide)).sector
  exact absurd hsector (by decide +kernel)

end RiscyOS
