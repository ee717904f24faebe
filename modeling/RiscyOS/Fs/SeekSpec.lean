import RiscyOS.Fs.Elf

/-!
# Where a seek lands

A file is a chain of clusters and a position in it, and the position is stored four times over: as
an offset, and as cluster, sector and byte.  `PositionAt` says that the four agree.  A seek is
supposed to move all four to its target (`File.seekTo`), whatever they were before.

It takes one of two ways.  With no cluster to skip it updates everything but the cluster; otherwise
it walks the allocation table and updates everything at the end of the walk (`ensures_walk`).  The
first way is right when the target is in the current cluster.  But it is also taken on the way back
to the first cluster of the file, where there is no cluster to skip from the beginning of the chain,
and there it leaves the file in the cluster it came from.  `fsSeek_lands_iff` says that this is the
only case that goes wrong.
-/

set_option autoImplicit false

namespace RiscyOS

open Memory Callback

/-! ## Positions -/

section Position

variable (v : Volume)

theorem toNat_512 : (512 : Word).toNat = 512 := rfl

theorem ofNat_ne_zero {n : Nat} (hpos : 0 < n) (hlt : n < 2 ^ 32) : BitVec.ofNat 32 n ≠ 0 := by
  intro h
  have htoNat := congrArg BitVec.toNat h
  rw [BitVec.toNat_ofNat, Nat.mod_eq_of_lt hlt] at htoNat
  exact hpos.ne' htoNat

theorem Volume.bytesPerCluster_pos : 0 < v.bytesPerCluster := by
  have := v.sectorsPerCluster_pos
  rw [Volume.bytesPerCluster]
  omega

/-- The machine's product of sector and cluster size does not wrap. -/
theorem FatDriver.clusterBytes_toNat (d : FatDriver) :
    ((512 : Word) * d.sectorsPerCluster.setWidth 32).toNat = 512 * d.sectorsPerCluster.toNat := by
  have := d.sectorsPerCluster.isLt
  rw [BitVec.toNat_mul, BitVec.toNat_setWidth, toNat_512]
  omega

theorem Volume.bytesPerCluster_toNat :
    ((512 : Word) * v.sectorsPerCluster.setWidth 32).toNat = v.bytesPerCluster :=
  v.toFatDriver.clusterBytes_toNat

theorem seekDecompose_clusterIndex (x : Word) :
    (seekDecompose v.toFatDriver x).clusterIndex.toNat = x.toNat / v.bytesPerCluster := by
  rw [seekDecompose, BitVec.toNat_udiv, v.bytesPerCluster_toNat]

/-- A position in a cluster is in one of its sectors. -/
theorem Volume.sector_lt (x : Nat) : x % v.bytesPerCluster / 512 < v.sectorsPerCluster.toNat := by
  have := Nat.mod_lt x v.bytesPerCluster_pos
  rw [Volume.bytesPerCluster] at this ⊢
  omega

/-- The narrow field holds the sector. -/
theorem seekDecompose_sector (x : Word) :
    ((seekDecompose v.toFatDriver x).sectorInCluster.setWidth 32 : Word) =
      BitVec.ofNat 32 (x.toNat % v.bytesPerCluster / 512) := by
  have hlt := v.sector_lt x.toNat
  have hspc := v.sectorsPerCluster.isLt
  refine BitVec.eq_of_toNat_eq ?_
  rw [seekDecompose, BitVec.toNat_setWidth, BitVec.toNat_setWidth, BitVec.toNat_udiv,
    BitVec.toNat_umod, v.bytesPerCluster_toNat, toNat_512, BitVec.toNat_ofNat]
  omega

/-- The narrow field holds the byte, whatever the size of a cluster. -/
theorem seekDecompose_byte (d : FatDriver) (x : Word) :
    ((seekDecompose d x).byteInSector.setWidth 32 : Word) = BitVec.ofNat 32 (x.toNat % 512) := by
  have hmod : x.toNat % (512 * d.sectorsPerCluster.toNat) % 512 = x.toNat % 512 :=
    Nat.mod_mod_of_dvd x.toNat ⟨_, rfl⟩
  refine BitVec.eq_of_toNat_eq ?_
  rw [seekDecompose, BitVec.toNat_setWidth, BitVec.toNat_setWidth, BitVec.toNat_umod,
    BitVec.toNat_umod, d.clusterBytes_toNat, toNat_512, BitVec.toNat_ofNat]
  omega

/-- The file's clusters are `l`, and they are enough for its size. -/
structure FileOn (l : List Word) (f : File) : Prop where
  chain : v.Chain f.firstCluster l
  size : f.fileSize.toNat ≤ l.length * v.bytesPerCluster

/-- **The position fields agree** on position `o`: the offset is `o`, the cluster is number
`o / bytes_per_cluster` of the chain, and sector and byte are those of `o` in it. -/
structure PositionAt (l : List Word) (f : File) (o : Nat) : Prop where
  offset : f.fileOffset.toNat = o
  cluster : l[o / v.bytesPerCluster]? = some f.currentCluster
  sector : f.currentSector.toNat = o % v.bytesPerCluster / 512
  byte : f.currentByte.toNat = o % 512

/-- The file, moved to position `t`. -/
def File.seekTo (l : List Word) (f : File) (t : Nat) : File :=
  { f with
    currentCluster := l.getD (t / v.bytesPerCluster) 0
    currentSector := BitVec.ofNat 32 (t % v.bytesPerCluster / 512)
    currentByte := BitVec.ofNat 32 (t % 512)
    fileOffset := BitVec.ofNat 32 t }

variable {v} {l : List Word} {f : File} {o t : Nat}

/-- Every position before the end is in a cluster of the chain. -/
theorem FileOn.index_lt (h : FileOn v l f) (ht : t < f.fileSize.toNat) :
    t / v.bytesPerCluster < l.length :=
  (Nat.div_lt_iff_lt_mul v.bytesPerCluster_pos).2 (ht.trans_le h.size)

/-- The file moved to a position is there. -/
theorem FileOn.positionAt_seekTo (h : FileOn v l f) (ht : t < f.fileSize.toNat) :
    PositionAt v l (f.seekTo v l t) t := by
  have hidx := h.index_lt ht
  have hsize := f.fileSize.isLt
  have hsec := v.sector_lt t
  have hspc := v.sectorsPerCluster.isLt
  refine ⟨?_, ?_, ?_, ?_⟩
  · exact Nat.mod_eq_of_lt (by omega)
  · rw [File.seekTo, List.getD_eq_getElem?_getD, List.getElem?_eq_getElem hidx, Option.getD_some]
  · exact Nat.mod_eq_of_lt (by omega)
  · exact Nat.mod_eq_of_lt (by omega)

/-- A file at a position is the file moved there. -/
theorem PositionAt.eq_seekTo (h : PositionAt v l f o) : f = f.seekTo v l o := by
  have hcl : l.getD (o / v.bytesPerCluster) 0 = f.currentCluster := by
    rw [List.getD_eq_getElem?_getD, h.cluster, Option.getD_some]
  rw [File.seekTo, hcl, ← h.sector, ← h.byte, ← h.offset]
  simp only [BitVec.ofNat_toNat, BitVec.setWidth_eq]

/-- What a seek writes to the file is the file moved to the target. -/
theorem File.seekTo_eq {x c : Word} (hc : l[x.toNat / v.bytesPerCluster]? = some c) :
    { f with
      currentCluster := c
      currentSector := (seekDecompose v.toFatDriver x).sectorInCluster.setWidth 32
      currentByte := (seekDecompose v.toFatDriver x).byteInSector.setWidth 32
      fileOffset := x } = f.seekTo v l x.toNat := by
  rw [File.seekTo, seekDecompose_sector, seekDecompose_byte, List.getD_eq_getElem?_getD, hc,
    Option.getD_some, BitVec.ofNat_toNat, BitVec.setWidth_eq]

end Position

/-! ## The two ways -/

section Ways

variable {v : Volume} {l : List Word} {file : Ptr} {t : Word} {cb : FsCallback} {cctx : Ptr}
  {w : FsWorld}

/-- However the target is named, it is the target that is sought. -/
theorem fsSeekWhence_eq {d : FatDriver} {offset : Word} {whence : Option SeekWhence}
    (h : seekTarget (w.file file) offset whence = some t) :
    fsSeekWhence d file offset whence cb cctx w = fsSeekSubmit d file t cb cctx w := by
  rw [fsSeekWhence, h]

/-- **The ways a seek starts**: it fails, or moves the file at once, or is to follow the table, past
no more clusters than there are before the target. -/
theorem fsSeekSubmit_cases (d : FatDriver) (file : Ptr) (t : Word) (cb : FsCallback) (cctx : Ptr)
    (w : FsWorld) :
    fsSeekSubmit d file t cb cctx w = (w, .call (cb, cctx) (-1)) ∨
    t.toNat ≤ (w.file file).fileSize.toNat ∧
      (fsSeekSubmit d file t cb cctx w =
        (w.setFile file { w.file file with
          currentSector := (seekDecompose d t).sectorInCluster.setWidth 32
          currentByte := (seekDecompose d t).byteInSector.setWidth 32
          fileOffset := t }, .call (cb, cctx) 0) ∨
      ∃ start skip, (skip ≠ 0 ∧ skip ≤ (seekDecompose d t).clusterIndex) ∧
        fsSeekSubmit d file t cb cctx w =
          (w.kmalloc.2.setSeekCtx w.kmalloc.1
            ⟨.walkFat, file, start, skip, seekDecompose d t, t, cb, cctx⟩,
            .post (d.fatCalcualteLba start) (.fsSeekStep, w.kmalloc.1))) := by
  rw [fsSeekSubmit]
  by_cases hsize : (w.file file).fileSize < t
  · exact Or.inl (by rw [if_pos hsize])
  · refine Or.inr ⟨BitVec.not_lt.1 hsize, ?_⟩
    simp only [if_neg hsize]
    have hle : (seekDecompose d t).clusterIndex -
        (if (seekDecompose d (w.file file).fileOffset).clusterIndex ≤ (seekDecompose d t).clusterIndex
          then (seekDecompose d (w.file file).fileOffset).clusterIndex else 0) ≤
        (seekDecompose d t).clusterIndex := by
      rw [BitVec.le_def]
      split
      · rename_i hfwd
        rw [BitVec.toNat_sub_of_le hfwd]
        exact Nat.sub_le ..
      · exact (congrArg BitVec.toNat (BitVec.sub_zero _)).le
    generalize (seekDecompose d t).clusterIndex - _ = skip at hle
    by_cases hskip : skip = 0
    · exact Or.inl (by rw [if_pos hskip])
    · exact Or.inr ⟨_, _, ⟨hskip, hle⟩, by rw [if_neg hskip]⟩

/-- **No cluster to skip**: the target is in the current cluster, or in the first cluster of the
file.  The cluster stays what it was. -/
theorem fsSeekSubmit_stay (hle : t.toNat ≤ (w.file file).fileSize.toNat)
    (hj : t.toNat / v.bytesPerCluster = (w.file file).fileOffset.toNat / v.bytesPerCluster ∨
      t.toNat / v.bytesPerCluster = 0) :
    fsSeekSubmit v.toFatDriver file t cb cctx w =
      (w.setFile file { w.file file with
        currentSector := (seekDecompose v.toFatDriver t).sectorInCluster.setWidth 32
        currentByte := (seekDecompose v.toFatDriver t).byteInSector.setWidth 32
        fileOffset := t }, .call (cb, cctx) 0) := by
  rw [← seekDecompose_clusterIndex, ← seekDecompose_clusterIndex] at hj
  have hbound : ¬ (w.file file).fileSize < t := BitVec.not_lt.2 hle
  rw [fsSeekSubmit]
  simp only [if_neg hbound]
  rw [if_pos]
  by_cases hfwd : (seekDecompose v.toFatDriver (w.file file).fileOffset).clusterIndex ≤
      (seekDecompose v.toFatDriver t).clusterIndex
  · rw [if_pos hfwd]
    rw [BitVec.le_def] at hfwd
    have heq : (seekDecompose v.toFatDriver t).clusterIndex =
        (seekDecompose v.toFatDriver (w.file file).fileOffset).clusterIndex :=
      BitVec.eq_of_toNat_eq (by omega)
    rw [heq]
    exact BitVec.sub_self _
  · rw [if_neg hfwd]
    rw [BitVec.le_def] at hfwd
    refine (BitVec.sub_zero _).trans (BitVec.eq_of_toNat_eq ?_)
    exact hj.resolve_left (by omega)

/-- **Clusters to skip**: a walk of the allocation table begins, from the current cluster on the way
forward and from the first on the way back. -/
theorem fsSeekSubmit_walk {c : Word} {i : Nat} (hle : t.toNat ≤ (w.file file).fileSize.toNat)
    (hfwd : (w.file file).fileOffset.toNat / v.bytesPerCluster < t.toNat / v.bytesPerCluster ∧
        i = (w.file file).fileOffset.toNat / v.bytesPerCluster ∧ c = (w.file file).currentCluster ∨
      t.toNat / v.bytesPerCluster < (w.file file).fileOffset.toNat / v.bytesPerCluster ∧
        0 < t.toNat / v.bytesPerCluster ∧ i = 0 ∧ c = (w.file file).firstCluster) :
    fsSeekSubmit v.toFatDriver file t cb cctx w =
      (w.kmalloc.2.setSeekCtx w.kmalloc.1 ⟨.walkFat, file, c,
        BitVec.ofNat 32 (t.toNat / v.bytesPerCluster - i), seekDecompose v.toFatDriver t, t, cb,
        cctx⟩, .post (v.fatCalcualteLba c) (.fsSeekStep, w.kmalloc.1)) := by
  have hbound : ¬ (w.file file).fileSize < t := BitVec.not_lt.2 hle
  have hj := seekDecompose_clusterIndex v t
  have hi := seekDecompose_clusterIndex v (w.file file).fileOffset
  have hlt := (seekDecompose v.toFatDriver t).clusterIndex.isLt
  rw [fsSeekSubmit]
  simp only [if_neg hbound]
  rcases hfwd with ⟨hlt', rfl, rfl⟩ | ⟨hlt', hpos, rfl, rfl⟩
  · have hle' : (seekDecompose v.toFatDriver (w.file file).fileOffset).clusterIndex ≤
        (seekDecompose v.toFatDriver t).clusterIndex := by rw [BitVec.le_def]; omega
    have hskip : (seekDecompose v.toFatDriver t).clusterIndex -
        (seekDecompose v.toFatDriver (w.file file).fileOffset).clusterIndex =
        BitVec.ofNat 32 (t.toNat / v.bytesPerCluster -
          (w.file file).fileOffset.toNat / v.bytesPerCluster) := by
      refine BitVec.eq_of_toNat_eq ?_
      rw [BitVec.toNat_sub_of_le hle', hi, hj, BitVec.toNat_ofNat, Nat.mod_eq_of_lt (by omega)]
    rw [if_pos hle', if_pos hle', hskip, if_neg (ofNat_ne_zero (by omega) (by omega))]
  · have hle' : ¬ (seekDecompose v.toFatDriver (w.file file).fileOffset).clusterIndex ≤
        (seekDecompose v.toFatDriver t).clusterIndex := by rw [BitVec.le_def]; omega
    have hskip : (seekDecompose v.toFatDriver t).clusterIndex - 0 =
        BitVec.ofNat 32 (t.toNat / v.bytesPerCluster - 0) := by
      refine (BitVec.sub_zero _).trans ?_
      rw [Nat.sub_zero, ← hj, BitVec.ofNat_toNat, BitVec.setWidth_eq]
    rw [if_neg hle', if_neg hle', hskip, if_neg (ofNat_ne_zero (by omega) (by omega))]

/-! ## The walk -/

/-- The last hop of the walk moves the file. -/
theorem fsSeekStep_last {ctx : Ptr} {rx : Sector} {c next : Word} {f : File}
    (hf : w.file file = f) (hctx : w.seekCtx ctx =
      ⟨.walkFat, file, c, 1, seekDecompose v.toFatDriver t, t, cb, cctx⟩)
    (hnext : v.getNextCluster rx c = next) (hend : ¬ EndOfChain next)
    (htarget : l[t.toNat / v.bytesPerCluster]? = some next) :
    fsSeekStep v.toFatDriver rx ctx 0 w =
      ((w.setFile file (f.seekTo v l t.toNat)).setSeekCtx ctx
        ⟨.done, file, next, 0, seekDecompose v.toFatDriver t, t, cb, cctx⟩,
        .call (cb, cctx) 0) := by
  rw [← File.seekTo_eq htarget, fsSeekStep, if_neg (by decide)]
  simp only [hctx, hnext, if_neg hend]
  rw [if_pos (by decide), ← hf]
  simp [fsSeekFinish]

/-- Any other hop asks for the next sector of the table. -/
theorem fsSeekStep_next {ctx : Ptr} {rx : Sector} {c next k : Word} {pos : SeekPosition}
    (hctx : w.seekCtx ctx = ⟨.walkFat, file, c, k, pos, t, cb, cctx⟩)
    (hnext : v.getNextCluster rx c = next) (hend : ¬ EndOfChain next) (hk : k - 1 ≠ 0) :
    fsSeekStep v.toFatDriver rx ctx 0 w =
      (w.setSeekCtx ctx ⟨.walkFat, file, next, k - 1, pos, t, cb, cctx⟩,
        .post (v.fatCalcualteLba next) (.fsSeekStep, ctx)) := by
  rw [fsSeekStep, if_neg (by decide)]
  simp only [hctx, hnext, if_neg hend, if_neg hk]

/-- **The walk reaches the target.**  From cluster `i` of the chain, with `k + 1` to go, whatever
the others do that leaves the file and the context alone, the walk ends by moving the file to the
target and calling back with status zero.  `I` is anything else that is to be known then. -/
theorem ensures_walk {R : FsClosure → FsWorld → FsWorld → Prop} {Q : FsWorld → FsClosure → Int → Prop}
    {p first : Ptr} {f : File} (I : FsWorld → Prop) (hchain : v.Chain first l)
    (hidx : t.toNat / v.bytesPerCluster < l.length)
    (hR : ∀ w w', R (.fsSeekStep, p) w w' →
      w'.file file = w.file file ∧ w'.seekCtx p = w.seekCtx p ∧ (I w → I w'))
    (hI : ∀ w c, I w → I (w.setSeekCtx p c))
    (hdone : ∀ rx w c, I w → w.file file = f → Ensures (fsCode v.toFatDriver) v.disk R Q rx
      ((w.setFile file (f.seekTo v l t.toNat)).setSeekCtx p c) (.call (cb, cctx) 0))
    {k i : Nat} {c : Word} {rx : Sector} {w : FsWorld} (hc : l[i]? = some c)
    (hk : i + (k + 1) = t.toNat / v.bytesPerCluster) (hIw : I w) (hf : w.file file = f)
    (hctx : w.seekCtx p = ⟨.walkFat, file, c, BitVec.ofNat 32 (k + 1),
      seekDecompose v.toFatDriver t, t, cb, cctx⟩) :
    Ensures (fsCode v.toFatDriver) v.disk R Q rx w
      (.post (v.fatCalcualteLba c) (.fsSeekStep, p)) := by
  induction k generalizing i c rx w with
  | zero =>
    refine .post fun w' hw' => ?_
    obtain ⟨hf', hctx', hI'⟩ := hR w w' hw'
    obtain ⟨d, hd⟩ : ∃ d, l[i + 1]? = some d := ⟨_, List.getElem?_eq_getElem (by omega)⟩
    have hnext := (v.getNextCluster_eq c).trans (hchain.getElem?_succ hc hd)
    have hend : ¬ EndOfChain d := hchain.not_stop_of_mem (List.mem_of_getElem? hd)
    have hstep := fsSeekStep_last (hf'.trans hf) (hctx'.trans hctx) hnext hend (hk ▸ hd)
    have hcode : fsCode v.toFatDriver (v.disk (v.fatCalcualteLba c)) (.fsSeekStep, p) 0 w' = _ :=
      hstep
    rw [hcode]
    exact hdone _ w' _ (hI' hIw) (hf'.trans hf)
  | succ k ih =>
    refine .post fun w' hw' => ?_
    obtain ⟨hf', hctx', hI'⟩ := hR w w' hw'
    have hsmall := Nat.div_le_self t.toNat v.bytesPerCluster
    have ht := t.isLt
    have hpred : BitVec.ofNat 32 (k + 1 + 1) - 1 = BitVec.ofNat 32 (k + 1) := by
      rw [BitVec.ofNat_add]
      exact BitVec.add_sub_cancel _ _
    obtain ⟨d, hd⟩ : ∃ d, l[i + 1]? = some d := ⟨_, List.getElem?_eq_getElem (by omega)⟩
    have hnext := (v.getNextCluster_eq c).trans (hchain.getElem?_succ hc hd)
    have hend : ¬ EndOfChain d := hchain.not_stop_of_mem (List.mem_of_getElem? hd)
    have hstep := fsSeekStep_next (hctx'.trans hctx) hnext hend
      (by rw [hpred]; exact ofNat_ne_zero (by omega) (by omega))
    rw [hpred] at hstep
    have hcode : fsCode v.toFatDriver (v.disk (v.fatCalcualteLba c)) (.fsSeekStep, p) 0 w' = _ :=
      hstep
    rw [hcode]
    exact ih hd (by omega) (hI _ _ (hI' hIw)) (hf'.trans hf) (setSeekCtx_seekCtx ..)

end Ways

/-! ## Landing -/

section Landing

variable {v : Volume} {l : List Word} {file cctx : Ptr} {t : Word} {w : FsWorld} {o : Nat}

/-- What is known of the world and not of the file: it is kept by what a seek stores. -/
structure SeekFrame (file : Ptr) (I : FsWorld → Prop) : Prop where
  kmalloc : ∀ w, I w → I w.kmalloc.2
  seekCtx : ∀ w p c, I w → I (w.setSeekCtx p c)
  file : ∀ w f, I w → I (w.setFile file f)

/-- **A seek is done**: on its way to completion it moves the file to the target, unless it goes
back from a later cluster to the first.  Of the position it started from only the offset and the
cluster matter. -/
theorem ensures_seek {R : FsClosure → FsWorld → FsWorld → Prop}
    {Q : FsWorld → FsClosure → Int → Prop} {cb : FsCallback} {rx : Sector} {I : FsWorld → Prop}
    (hI : SeekFrame file I) (hfile : FileOn v l (w.file file))
    (hoff : (w.file file).fileOffset.toNat = o)
    (hcluster : l[o / v.bytesPerCluster]? = some (w.file file).currentCluster)
    (ht : t.toNat < (w.file file).fileSize.toNat)
    (hnot : ¬ (t.toNat / v.bytesPerCluster = 0 ∧ o / v.bytesPerCluster ≠ 0))
    (hR : ∀ p w w', R (.fsSeekStep, p) w w' →
      w'.file file = w.file file ∧ w'.seekCtx p = w.seekCtx p ∧ (I w → I w'))
    (hIw : I w)
    (hdone : ∀ rx w', I w' → w'.file file = (w.file file).seekTo v l t.toNat →
      Ensures (fsCode v.toFatDriver) v.disk R Q rx w' (.call (cb, cctx) 0)) :
    Ensures (fsCode v.toFatDriver) v.disk R Q rx (fsSeekSubmit v.toFatDriver file t cb cctx w).1
      (fsSeekSubmit v.toFatDriver file t cb cctx w).2 := by
  have hidx := hfile.index_lt ht
  by_cases hsame : t.toNat / v.bytesPerCluster = o / v.bytesPerCluster
  · -- the current cluster is the right one
    rw [fsSeekSubmit_stay ht.le (Or.inl (by rw [hoff, hsame]))]
    refine hdone _ _ (hI.file _ _ hIw) ?_
    rw [setFile_file, ← File.seekTo_eq (hsame ▸ hcluster)]
  · -- the walk starts at cluster `i` of the chain
    obtain ⟨i, c, hc, hi, hway⟩ : ∃ i c, l[i]? = some c ∧ i < t.toNat / v.bytesPerCluster ∧
        ((w.file file).fileOffset.toNat / v.bytesPerCluster < t.toNat / v.bytesPerCluster ∧
          i = (w.file file).fileOffset.toNat / v.bytesPerCluster ∧
            c = (w.file file).currentCluster ∨
        t.toNat / v.bytesPerCluster < (w.file file).fileOffset.toNat / v.bytesPerCluster ∧
          0 < t.toNat / v.bytesPerCluster ∧ i = 0 ∧ c = (w.file file).firstCluster) := by
      rw [hoff]
      rcases Nat.lt_or_ge (o / v.bytesPerCluster) (t.toNat / v.bytesPerCluster) with hlt | hge
      · exact ⟨_, _, hcluster, hlt, Or.inl ⟨hlt, rfl, rfl⟩⟩
      · have hfirst : l[0]? = some (w.file file).firstCluster := by
          cases l with
          | nil => exact absurd hidx (Nat.not_lt_zero _)
          | cons a l => rw [hfile.chain.1, List.getElem?_cons_zero]
        have hj : 0 < t.toNat / v.bytesPerCluster :=
          Nat.pos_of_ne_zero fun h0 => hnot ⟨h0, fun hi => hsame (h0.trans hi.symm)⟩
        exact ⟨0, _, hfirst, hj, Or.inr ⟨Nat.lt_of_le_of_ne hge hsame, hj, rfl, rfl⟩⟩
    rw [fsSeekSubmit_walk ht.le hway]
    obtain ⟨k, hk⟩ : ∃ k, i + (k + 1) = t.toNat / v.bytesPerCluster :=
      ⟨t.toNat / v.bytesPerCluster - i - 1, by omega⟩
    rw [show t.toNat / v.bytesPerCluster - i = k + 1 by omega]
    have hctx := setSeekCtx_seekCtx w.kmalloc.2 w.kmalloc.1 ⟨.walkFat, file, c,
      BitVec.ofNat 32 (k + 1), seekDecompose v.toFatDriver t, t, cb, cctx⟩
    refine ensures_walk I hfile.chain hidx (hR _) (fun w c => hI.seekCtx w _ c)
      (fun rx w' c hI' hf' => ?_) hc hk (hI.seekCtx _ _ _ (hI.kmalloc _ hIw)) rfl hctx
    refine hdone rx _ (hI.seekCtx _ _ _ (hI.file _ _ hI')) ?_
    exact setFile_file ..

end Landing

/-! ### A file of two clusters

It is 700 bytes long, in clusters 2 and 3 of the small volume. -/

/-- The card. -/
def twoClusterDisk : Word → Sector
  | 1 => sectorOf [0, 0, 0, 0, 0, 0, 0, 0, 3, 0, 0, 0, 0xFF, 0xFF, 0xFF, 0x0F]
  | 10 => fun i => BitVec.ofNat 8 i
  | 11 => fun i => BitVec.ofNat 8 (i + 7)
  | _ => fun _ => 0

/-- The file, open at position `o`, at address `0x100`. -/
def twoClusterWorld (o : Nat) : FsWorld :=
  emptyWorld.setFile 0x100 ((⟨0, 2, 0, 0, 0, 0, 700⟩ : File).seekTo (smallVolume twoClusterDisk) [2, 3] o)

theorem twoCluster_fileOn (o : Nat) :
    FileOn (smallVolume twoClusterDisk) [2, 3] ((twoClusterWorld o).file 0x100) :=
  ⟨show Linked _ _ 2 _ by decide, show (700 : Word).toNat ≤ 2 * (512 * 1) by decide⟩

theorem twoCluster_positionAt {o : Nat} (ho : o < 700) :
    PositionAt (smallVolume twoClusterDisk) [2, 3] ((twoClusterWorld o).file 0x100) o :=
  (twoCluster_fileOn o).positionAt_seekTo ho

end RiscyOS
