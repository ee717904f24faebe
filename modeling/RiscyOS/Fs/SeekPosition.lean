import Mathlib.Data.Prod.Lex
import RiscyOS.Fs.SeekSpec

/-!
# Offsets and positions

`seek_decompose` turns an offset into cluster, sector and byte, and puts the sector into 8 bits and the byte
into 16.  `fs_seek_submit` then looks at the clusters alone to find out whether it has to go forward or back.
So the three have to say as much as the offset does, and to be in the same order.

* `divMod` — quotient and remainder, ordered like the number they come from.
* `SeekPosition.key` — a position as something to compare: by cluster, then by sector, then by byte.
* `SeekDirection` — what `fs_seek_submit` does, by the offsets instead of by the clusters.
* `seek_lossless` — all of it, for every size of a cluster but 0.
-/

set_option autoImplicit false

namespace RiscyOS

open Memory

/-! ## Quotient and remainder -/

/-- Quotient and remainder, to be compared in this order. -/
def divMod (n x : Nat) : Nat ×ₗ Nat := toLex (x / n, x % n)

theorem divMod_le_iff {n x y : Nat} :
    divMod n x ≤ divMod n y ↔ x / n < y / n ∨ x / n = y / n ∧ x % n ≤ y % n := by
  rw [divMod, divMod, Prod.Lex.le_iff]
  rfl

/-- **They are ordered like the numbers.** -/
theorem divMod_strictMono (n : Nat) : StrictMono (divMod n) := by
  intro x y hxy
  rw [divMod, divMod, Prod.Lex.lt_iff]
  rcases (Nat.div_le_div_right hxy.le : x / n ≤ y / n).lt_or_eq with hlt | heq
  · exact Or.inl hlt
  · refine Or.inr ⟨heq, ?_⟩
    have hx := Nat.div_add_mod x n
    have hy := Nat.div_add_mod y n
    rw [← heq] at hy
    exact show x % n < y % n by omega

/-! ## Positions -/

/-- **A position, to be compared**: the cluster first, then the sector, then the byte. -/
def SeekPosition.key (pos : SeekPosition) : Nat ×ₗ Nat ×ₗ Nat :=
  toLex (pos.clusterIndex.toNat, toLex (pos.sectorInCluster.toNat, pos.byteInSector.toNat))

/-- A seek that has no cluster to skip. -/
def seekStay (d : FatDriver) (file : Ptr) (t : Word) (cb : FsCallback) (cctx : Ptr) (w : FsWorld) :
    FsWorld × FsAction :=
  (w.setFile file { w.file file with
    currentSector := (seekDecompose d t).sectorInCluster.setWidth 32
    currentByte := (seekDecompose d t).byteInSector.setWidth 32
    fileOffset := t }, .call (cb, cctx) 0)

/-- A seek that skips as many clusters, from `start`. -/
def seekWalk (d : FatDriver) (file : Ptr) (t : Word) (cb : FsCallback) (cctx : Ptr) (w : FsWorld)
    (start : Word) (skip : Nat) : FsWorld × FsAction :=
  (w.kmalloc.2.setSeekCtx w.kmalloc.1 ⟨.walkFat, file, start, BitVec.ofNat 32 skip, seekDecompose d t, t, cb,
    cctx⟩, .post (d.fatCalcualteLba start) (.fsSeekStep, w.kmalloc.1))

/-- **The direction of a seek** with `n` bytes to a cluster.  In the same cluster there is nothing to skip; to
a later offset the way is from the current cluster, past as many as there are between; to an earlier one it is
from the first cluster of the file, past as many as are before the target. -/
structure SeekDirection (d : FatDriver) (n : Nat) (file : Ptr) (t : Word) (cb : FsCallback) (cctx : Ptr)
    (w : FsWorld) : Prop where
  same : (w.file file).fileOffset.toNat / n = t.toNat / n →
    fsSeekSubmit d file t cb cctx w = seekStay d file t cb cctx w
  forward : (w.file file).fileOffset ≤ t → (w.file file).fileOffset.toNat / n ≠ t.toNat / n →
    fsSeekSubmit d file t cb cctx w = seekWalk d file t cb cctx w (w.file file).currentCluster
      (t.toNat / n - (w.file file).fileOffset.toNat / n)
  backward : t < (w.file file).fileOffset → (w.file file).fileOffset.toNat / n ≠ t.toNat / n →
    fsSeekSubmit d file t cb cctx w = if t.toNat / n = 0 then seekStay d file t cb cctx w
      else seekWalk d file t cb cctx w (w.file file).firstCluster (t.toNat / n)

/-- **Nothing is lost** when an offset is taken apart: the sector is one of the cluster and the byte one of
the sector, the narrow fields hold what has been computed for them, offset and order can be had back, and a
seek goes in the right direction. -/
structure SeekLossless (d : FatDriver) : Prop where
  sector_lt : ∀ x, (seekDecompose d x).sectorInCluster < d.sectorsPerCluster
  byte_lt : ∀ x, (seekDecompose d x).byteInSector.toNat < 512
  sector_kept : ∀ x : Word, ((seekDecompose d x).sectorInCluster.setWidth 32 : Word) =
    x % (512 * d.sectorsPerCluster.setWidth 32) / 512
  byte_kept : ∀ x : Word, ((seekDecompose d x).byteInSector.setWidth 32 : Word) =
    x % (512 * d.sectorsPerCluster.setWidth 32) % 512
  sum : ∀ x, (seekDecompose d x).clusterIndex.toNat * 512 * d.sectorsPerCluster.toNat +
    (seekDecompose d x).sectorInCluster.toNat * 512 + (seekDecompose d x).byteInSector.toNat = x.toNat
  order : ∀ x y, (seekDecompose d x).key ≤ (seekDecompose d y).key ↔ x ≤ y
  direction : ∀ file t cb cctx w, t ≤ (w.file file).fileSize →
    SeekDirection d (512 * d.sectorsPerCluster.toNat) file t cb cctx w

section Volume

variable (v : Volume) (x : Word)

theorem Volume.mod_mod_512 (x : Nat) : x % v.bytesPerCluster % 512 = x % 512 := Nat.mod_mod_of_dvd x ⟨_, rfl⟩

theorem seekDecompose_sector_toNat :
    (seekDecompose v.toFatDriver x).sectorInCluster.toNat = x.toNat % v.bytesPerCluster / 512 := by
  have hlt := v.sector_lt x.toNat
  have hspc := v.sectorsPerCluster.isLt
  have hwide := congrArg BitVec.toNat (seekDecompose_sector v x)
  rw [BitVec.toNat_setWidth, BitVec.toNat_ofNat] at hwide
  omega

theorem seekDecompose_byte_toNat (d : FatDriver) : (seekDecompose d x).byteInSector.toNat = x.toNat % 512 := by
  have hwide := congrArg BitVec.toNat (seekDecompose_byte d x)
  rw [BitVec.toNat_setWidth, BitVec.toNat_ofNat] at hwide
  omega

/-- The position is the offset divided twice. -/
theorem seekDecompose_key : (seekDecompose v.toFatDriver x).key =
    toLex (x.toNat / v.bytesPerCluster, divMod 512 (x.toNat % v.bytesPerCluster)) := by
  rw [SeekPosition.key, seekDecompose_clusterIndex, seekDecompose_sector_toNat, seekDecompose_byte_toNat, divMod,
    v.mod_mod_512]

/-- **The order of the positions is that of the offsets.** -/
theorem seekDecompose_le_iff (y : Word) :
    (seekDecompose v.toFatDriver x).key ≤ (seekDecompose v.toFatDriver y).key ↔ x ≤ y := by
  have hkey : (seekDecompose v.toFatDriver x).key ≤ (seekDecompose v.toFatDriver y).key ↔
      x.toNat / v.bytesPerCluster < y.toNat / v.bytesPerCluster ∨
        x.toNat / v.bytesPerCluster = y.toNat / v.bytesPerCluster ∧
          divMod 512 (x.toNat % v.bytesPerCluster) ≤ divMod 512 (y.toNat % v.bytesPerCluster) := by
    rw [seekDecompose_key, seekDecompose_key, Prod.Lex.le_iff]
    rfl
  rw [hkey, (divMod_strictMono 512).le_iff_le, ← divMod_le_iff, (divMod_strictMono _).le_iff_le, BitVec.le_def]

theorem seekDecompose_sum :
    (seekDecompose v.toFatDriver x).clusterIndex.toNat * 512 * v.sectorsPerCluster.toNat +
      (seekDecompose v.toFatDriver x).sectorInCluster.toNat * 512 +
      (seekDecompose v.toFatDriver x).byteInSector.toNat = x.toNat := by
  have hinner := Nat.div_add_mod (x.toNat % v.bytesPerCluster) 512
  rw [v.mod_mod_512] at hinner
  rw [seekDecompose_clusterIndex, seekDecompose_sector_toNat, seekDecompose_byte_toNat]
  calc x.toNat / v.bytesPerCluster * 512 * v.sectorsPerCluster.toNat +
        x.toNat % v.bytesPerCluster / 512 * 512 + x.toNat % 512
      = v.bytesPerCluster * (x.toNat / v.bytesPerCluster) +
        (512 * (x.toNat % v.bytesPerCluster / 512) + x.toNat % 512) := by
        rw [Volume.bytesPerCluster]
        ring
    _ = v.bytesPerCluster * (x.toNat / v.bytesPerCluster) + x.toNat % v.bytesPerCluster := by rw [hinner]
    _ = x.toNat := Nat.div_add_mod _ _

variable {v} {file cctx : Ptr} {t : Word} {cb : FsCallback} {w : FsWorld}

/-- **The clusters decide as the offsets do.** -/
theorem fsSeekSubmit_direction (hle : t ≤ (w.file file).fileSize) :
    SeekDirection v.toFatDriver v.bytesPerCluster file t cb cctx w := by
  rw [BitVec.le_def] at hle
  refine ⟨fun heq => fsSeekSubmit_stay hle (Or.inl heq.symm), fun hot hne => ?_, fun hto hne => ?_⟩
  · have hlt : (w.file file).fileOffset.toNat / v.bytesPerCluster < t.toNat / v.bytesPerCluster :=
      (Nat.div_le_div_right hot).lt_of_ne hne
    exact fsSeekSubmit_walk hle (Or.inl ⟨hlt, rfl, rfl⟩)
  · have hlt : t.toNat / v.bytesPerCluster < (w.file file).fileOffset.toNat / v.bytesPerCluster :=
      (Nat.div_le_div_right (BitVec.lt_def.1 hto).le).lt_of_ne hne.symm
    by_cases hzero : t.toNat / v.bytesPerCluster = 0
    · rw [if_pos hzero]
      exact fsSeekSubmit_stay hle (Or.inr hzero)
    · rw [if_neg hzero]
      exact fsSeekSubmit_walk hle (Or.inr ⟨hlt, Nat.pos_of_ne_zero hzero, rfl, rfl⟩)

end Volume

/-- **Taking an offset apart loses nothing**, for any number of sectors to a cluster but 0. -/
theorem seek_lossless (d : FatDriver) (hspc : 1 ≤ d.sectorsPerCluster.toNat) : SeekLossless d := by
  -- nothing of the rest of the volume matters
  obtain ⟨v, rfl⟩ : ∃ v : Volume, v.toFatDriver = d :=
    ⟨⟨d, fun _ _ => 0, fun c => d.getNextCluster (fun _ => 0) c, hspc, fun _ => rfl⟩, rfl⟩
  refine ⟨fun x => ?_, fun x => ?_, fun x => ?_, fun x => ?_, seekDecompose_sum v, seekDecompose_le_iff v,
    fun file t cb cctx w hle => fsSeekSubmit_direction hle⟩
  · rw [BitVec.lt_def, seekDecompose_sector_toNat]
    exact v.sector_lt x.toNat
  · rw [seekDecompose_byte_toNat]
    exact Nat.mod_lt _ (by decide)
  · refine BitVec.eq_of_toNat_eq ?_
    have hlt := Nat.mod_le x.toNat v.bytesPerCluster
    have hx := x.isLt
    rw [seekDecompose_sector, BitVec.toNat_ofNat, BitVec.toNat_udiv, BitVec.toNat_umod, v.bytesPerCluster_toNat,
      toNat_512, Nat.mod_eq_of_lt (by omega)]
  · refine BitVec.eq_of_toNat_eq ?_
    rw [seekDecompose_byte, BitVec.toNat_ofNat, BitVec.toNat_umod, BitVec.toNat_umod, v.bytesPerCluster_toNat,
      toNat_512, v.mod_mod_512, Nat.mod_eq_of_lt (by omega)]

/-- Clusters of three sectors. -/
theorem seek_lossless_three : SeekLossless ⟨3, 2, fun c => c, fun c => c, fun _ c => c + 1⟩ :=
  seek_lossless _ (by decide)

end RiscyOS
