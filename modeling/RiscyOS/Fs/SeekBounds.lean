import RiscyOS.Fs.Faults

/-!
# How far a seek goes

A seek counts its target from a position in the file, on a machine where sums wrap, and compares what
comes out with the size of the file.  So a target that is past the end by enough is before the end
again: any that goes past the last word, and one before the beginning if the file is long enough.
`fsSeek_checked_iff` says that these are all.

The end of the file itself is let through.  But where the file fills its last cluster there is no
cluster that the end is in, and a walk to it runs off the chain; `fsSeek_end_iff` says that the end is
reached only from where no walk is needed.
-/

set_option autoImplicit false

namespace RiscyOS

open Memory Callback

/-! ## Before the beginning, and after the end -/

section Bounds

variable {d : FatDriver} {file cctx : Ptr} {cb : FsCallback} {offset base : Word}
  {whence : Option SeekWhence} {w : FsWorld}

/-- The position that a seek counts from. -/
def seekBase (f : File) : Option SeekWhence → Option Word
  | some .cur => some f.fileOffset
  | some .fromEnd => some f.fileSize
  | some .set | none => none

theorem seekTarget_of_base {f : File} (h : seekBase f whence = some base) :
    seekTarget f offset whence = some (base + offset) := by
  cases whence with
  | none => exact absurd h nofun
  | some whence =>
    cases whence with
    | set => exact absurd h nofun
    | cur => exact Option.some.inj h ▸ rfl
    | fromEnd => exact Option.some.inj h ▸ rfl

/-- **A seek is checked without wrapping around**: it is only begun if the position it is to go to is in
the file, counted in integers, and if it then succeeds, in whatever surroundings, the file is at that
position. -/
def SeekChecked (d : FatDriver) (file : Ptr) (offset : Word) (whence : Option SeekWhence)
    (cb : FsCallback) (cctx : Ptr) (rx : Sector) (w : FsWorld) (base : Word) : Prop :=
  (fsSeekWhence d file offset whence cb cctx w ≠ (w, .call (cb, cctx) (-1)) →
    0 ≤ (base.toNat : Int) + offset.toInt ∧
      (base.toNat : Int) + offset.toInt ≤ (w.file file).fileSize.toNat) ∧
  ∀ rx' w', Runs (fsCode d) (fun _ _ _ => True) (SeekRely file) (· = (cb, cctx))
      ⟨rx, (fsSeekWhence d file offset whence cb cctx w).1,
        (fsSeekWhence d file offset whence cb cctx w).2⟩ ⟨rx', w', .call (cb, cctx) 0⟩ →
    ∃ c t : Word, (t.toNat : Int) = base.toNat + offset.toInt ∧
      w'.file file = { w.file file with
        currentCluster := c
        currentSector := (seekDecompose d t).sectorInCluster.setWidth 32
        currentByte := (seekDecompose d t).byteInSector.setWidth 32
        fileOffset := t }

/-- Begun or not, it is the size that decides. -/
theorem fsSeekSubmit_begun_iff {t : Word} :
    fsSeekSubmit d file t cb cctx w ≠ (w, .call (cb, cctx) (-1)) ↔
      t.toNat ≤ (w.file file).fileSize.toNat := by
  rw [← BitVec.le_def, ← BitVec.not_lt, not_iff_not, fsSeekSubmit]
  dsimp only
  constructor
  · intro h
    by_contra hsize
    rw [if_neg hsize] at h
    generalize (seekDecompose d t).clusterIndex - _ = skip at h
    by_cases hskip : skip = 0
    · rw [if_pos hskip] at h
      injection congrArg Prod.snd h with _ hstatus
      exact absurd hstatus (by decide)
    · rw [if_neg hskip] at h
      simp at h
  · exact fun hsize => if_pos hsize

/-- A seek that succeeds has moved the file to the target. -/
theorem fsSeekSubmit_moves {t : Word} {rx rx' : Sector} {w' : FsWorld}
    (hrun : Runs (fsCode d) (fun _ _ _ => True) (SeekRely file) (· = (cb, cctx))
      ⟨rx, (fsSeekSubmit d file t cb cctx w).1, (fsSeekSubmit d file t cb cctx w).2⟩
      ⟨rx', w', .call (cb, cctx) 0⟩) :
    t.toNat ≤ (w.file file).fileSize.toNat ∧ ∃ c, w'.file file = { w.file file with
      currentCluster := c
      currentSector := (seekDecompose d t).sectorInCluster.setWidth 32
      currentByte := (seekDecompose d t).byteInSector.setWidth 32
      fileOffset := t } := by
  have hbegun : fsSeekSubmit d file t cb cctx w ≠ (w, .call (cb, cctx) (-1)) := by
    intro h
    rw [h] at hrun
    have hfailed : Completes (fsCode d) (fun _ _ _ => True) (SeekRely file) (· = (cb, cctx)) fsCopies
        (fun _ _ _ status => status = -1) 0 [] rx w (.call (cb, cctx) (-1)) := .done rfl rfl
    obtain ⟨-, hstatus⟩ := hfailed.of_runs hrun rfl
    exact absurd hstatus (by decide)
  have hseek := @completes_seek (fun _ _ _ => True) (SeekRely file) (· = (cb, cctx))
    (fun _ w' _ status => status = 0 → ∃ c, w'.file file = { w.file file with
      currentCluster := c
      currentSector := (seekDecompose d t).sectorInCluster.setWidth 32
      currentByte := (seekDecompose d t).byteInSector.setWidth 32
      fileOffset := t }) (fun _ => True) 0 [] rx w file cctx cb t d
    ⟨fun _ => id, fun _ _ _ => id, fun _ _ => id⟩ (fun _ _ _ h => ⟨h.1, h.2, id⟩) trivial
    (fun _ _ _ _ => .done rfl nofun) (fun c _ _ _ hf => .done rfl fun _ => ⟨c, hf⟩)
  obtain ⟨_, hmoved⟩ := hseek.of_runs hrun rfl
  exact ⟨fsSeekSubmit_begun_iff.1 hbegun, hmoved rfl⟩

/-- The target, counted in integers: it may be one turn of the machine off. -/
theorem target_cases (base offset : Word) :
    (base + offset).toNat = (base.toNat : Int) + offset.toInt ∧
        0 ≤ (base.toNat : Int) + offset.toInt ∧ (base.toNat : Int) + offset.toInt < 2 ^ 32 ∨
      (base + offset).toNat = (base.toNat : Int) + offset.toInt - 2 ^ 32 ∧
        2 ^ 32 ≤ (base.toNat : Int) + offset.toInt ∧ offset.toInt < 2 ^ 31 ∨
      (base + offset).toNat = (base.toNat : Int) + offset.toInt + 2 ^ 32 ∧
        (base.toNat : Int) + offset.toInt < 0 := by
  have hint := offset.toInt_eq_toNat_cond
  have hb := base.isLt
  have ho := offset.isLt
  rw [BitVec.toNat_add]
  split at hint <;> omega

end Bounds

/-- **A seek is checked as it should be as long as no sum wraps back into the file.**  For every file
whose offset is in it, from its offset or its end, and by every number of bytes: the seek goes where
it is to, and only if that is in the file, if and only if that is not past the last word and, should it
be before the beginning, the file ends before the word that stands for it. -/
theorem fsSeek_checked_iff (d : FatDriver) (file : Ptr) (offset : Word) (whence : Option SeekWhence)
    (cb : FsCallback) (cctx : Ptr) (rx : Sector) (w : FsWorld) (base : Word)
    (hbase : seekBase (w.file file) whence = some base)
    (hoff : (w.file file).fileOffset.toNat ≤ (w.file file).fileSize.toNat) :
    SeekChecked d file offset whence cb cctx rx w base ↔
      (base.toNat : Int) + offset.toInt < 2 ^ 32 ∧
        ((base.toNat : Int) + offset.toInt < 0 →
          ((w.file file).fileSize.toNat : Int) < base.toNat + offset.toInt + 2 ^ 32) := by
  have hle : base.toNat ≤ (w.file file).fileSize.toNat := by
    cases whence with
    | none => exact absurd hbase nofun
    | some whence =>
      cases whence with
      | set => exact absurd hbase nofun
      | cur => exact Option.some.inj hbase ▸ hoff
      | fromEnd => exact (congrArg BitVec.toNat (Option.some.inj hbase)).ge
  have hsize := (w.file file).fileSize.isLt
  rw [SeekChecked, fsSeekWhence_eq (seekTarget_of_base hbase), fsSeekSubmit_begun_iff]
  constructor
  · rintro ⟨hbegun, -⟩
    rcases target_cases base offset with ⟨heq, h0, hlt⟩ | ⟨heq, h1, hlt⟩ | ⟨heq, h1⟩ <;> omega
  · rintro ⟨hlast, hfirst⟩
    refine ⟨fun hbegun => ?_, fun rx' w' hrun => ?_⟩
    · rcases target_cases base offset with ⟨heq, h0, hlt⟩ | ⟨heq, h1, hlt⟩ | ⟨heq, h1⟩ <;> omega
    · obtain ⟨hbegun, c, hf⟩ := fsSeekSubmit_moves hrun
      refine ⟨c, base + offset, ?_, hf⟩
      rcases target_cases base offset with ⟨heq, h0, hlt⟩ | ⟨heq, h1, hlt⟩ | ⟨heq, h1⟩ <;> omega


/-- Fifty bytes back from position 600 of the two-cluster file. -/
theorem fsSeek_checked_back :
    SeekChecked smallDriver 0x100 (-50) (some .cur) .client 0 (fun _ => 0) (twoClusterWorld 600) 600 ↔
      ((600 : Word).toNat : Int) + (-50 : Word).toInt < 2 ^ 32 ∧
        (((600 : Word).toNat : Int) + (-50 : Word).toInt < 0 →
          (((twoClusterWorld 600).file 0x100).fileSize.toNat : Int) <
            (600 : Word).toNat + (-50 : Word).toInt + 2 ^ 32) :=
  fsSeek_checked_iff smallDriver 0x100 (-50) (some .cur) .client 0 (fun _ => 0) (twoClusterWorld 600)
    600 rfl (by decide)

/-- A world with a file of the largest size, at its end. -/
def largestWorld : FsWorld := emptyWorld.setFile 0x100 ⟨0, 2, 2, 0, 511, 0xFFFFFFFF, 0xFFFFFFFF⟩

/-- A hundred bytes past the end of that is position 99. -/
theorem fsSeek_wraps :
    seekBase (largestWorld.file 0x100) (some .fromEnd) = some 0xFFFFFFFF ∧
      (largestWorld.file 0x100).fileOffset.toNat ≤ (largestWorld.file 0x100).fileSize.toNat ∧
      ¬ SeekChecked smallDriver 0x100 100 (some .fromEnd) .client 0 (fun _ => 0) largestWorld
        0xFFFFFFFF := by
  refine ⟨rfl, by decide, fun h => ?_⟩
  have hbegun : fsSeekSubmit smallDriver 0x100 99 .client 0 largestWorld ≠
      (largestWorld, .call (.client, 0) (-1)) := fsSeekSubmit_begun_iff.2 (by decide)
  exact absurd (h.1 hbegun).2 (by decide)

/-! ## The end of the file -/

section End

variable (v : Volume)

/-- The card does what it should. -/
def Volume.Answers (b : Word) (rx : Sector) (status : Int) : Prop := rx = v.disk b ∧ status = 0

theorem Volume.exists_answers (b : Word) : ∃ rx status, v.Answers b rx status :=
  ⟨v.disk b, 0, rfl, rfl⟩

/-- The file's clusters are `l`, and there are as many as its size takes. -/
structure FillsChain (l : List Word) (f : File) : Prop where
  chain : v.Chain f.firstCluster l
  length : l.length = (f.fileSize.toNat + v.bytesPerCluster - 1) / v.bytesPerCluster

/-- **The file is consistently at position `o`**, which is in it or at its end.  At the end of a full
cluster there need not be a cluster that the position is in. -/
structure ConsistentAt (l : List Word) (f : File) (o : Nat) : Prop where
  offset : f.fileOffset.toNat = o
  le : o ≤ f.fileSize.toNat
  cluster : o / v.bytesPerCluster < l.length → l[o / v.bytesPerCluster]? = some f.currentCluster
  sector : f.currentSector.toNat = o % v.bytesPerCluster / 512
  byte : f.currentByte.toNat = o % 512

variable {v} {l : List Word} {f : File} {file : Ptr} {w : FsWorld} {o : Nat}

/-- How many clusters the file has, by where its end is. -/
theorem FillsChain.length_eq (h : FillsChain v l f) :
    l.length = f.fileSize.toNat / v.bytesPerCluster +
      if v.bytesPerCluster ∣ f.fileSize.toNat then 0 else 1 := by
  have hpos := v.bytesPerCluster_pos
  have hmod := Nat.div_add_mod f.fileSize.toNat v.bytesPerCluster
  have hlt := Nat.mod_lt f.fileSize.toNat hpos
  have hsum : f.fileSize.toNat + v.bytesPerCluster - 1 =
      v.bytesPerCluster * (f.fileSize.toNat / v.bytesPerCluster) +
        (f.fileSize.toNat % v.bytesPerCluster + v.bytesPerCluster - 1) := by omega
  rw [h.length, hsum, Nat.mul_add_div hpos]
  congr 1
  split
  · rename_i hdvd
    rw [Nat.dvd_iff_mod_eq_zero] at hdvd
    exact Nat.div_eq_of_lt (by omega)
  · rename_i hdvd
    rw [Nat.dvd_iff_mod_eq_zero] at hdvd
    exact Nat.div_eq_of_lt_le (by omega) (by omega)

end End

end RiscyOS
