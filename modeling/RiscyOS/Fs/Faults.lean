import RiscyOS.Fs.ReadSpec
import RiscyOS.Lib.Answers

/-!
# Seeking and reading on any card

Sectors may hold anything, and requests may come back with any status.  A seek and a read end all the
same, by calling back once.

* A seek asks for one sector of the table for each cluster it skips, and for none before it knows that
  its target is in the file.  It stores nothing in the file before the last of them has been looked up
  (`fsSeek_completes`).
* A read whose file is at the end of a sector copies nothing at first, and then seeks to where its offset
  says it is; after that every turn copies at least a byte.  What it copies goes to its buffer byte by
  byte, from inside the sector (`fsRead_confined`).
-/

set_option autoImplicit false

namespace RiscyOS

open Memory Callback

/-! ## What is copied -/

/-- The bytes that `copySector` copies: the index in the sector, and the address. -/
def copies (currentByte : Word) (dst : Ptr) (n : Nat) : List (Nat × Ptr) :=
  (List.range n).map fun i => ((currentByte + BitVec.ofNat 32 i).toNat, dst + BitVec.ofNat 32 i)

theorem copySector_eq_foldl (s : Sector) (b : Word) (dst : Ptr) (n : Nat) (m : Mem) :
    copySector s b dst n m = (copies b dst n).foldl (fun m x => store8 m x.2 (s x.1)) m := by
  induction n with
  | zero => rfl
  | succ n ih =>
    rw [copySector, ih, copies, copies, List.range_succ, List.map_append, List.foldl_append]
    rfl

/-- How much is taken of a sector, with `rem` bytes to go. -/
def readChunk (f : File) (rem : Word) : Word :=
  if 512 ≤ f.currentByte + rem then 512 - f.currentByte else rem

/-- What `fs_read_step` copies. -/
def fsReadCopies (ctx : Ptr) (status : Int) (w : FsWorld) : List (Nat × Ptr) :=
  let c := w.readCtx ctx
  let f := w.file c.file
  if status = 0 ∧ c.state = .copyContents then
    copies f.currentByte c.buffer (readChunk f c.bytesRemaining).toInt.toNat
  else []

/-- What a step function of a seek or a read copies. -/
def fsCopies (_ : Sector) (k : FsClosure) (status : Int) (w : FsWorld) : List (Nat × Ptr) :=
  match k.1 with
  | .fsReadStep => fsReadCopies k.2 status w
  | .fsOpenStep | .fsSeekStep | .elfStep | .client => []

section Steps

variable {d : FatDriver} {rx : Sector} {p file buffer cctx : Ptr} {rem : Word} {cb : FsCallback}
  {w : FsWorld}

/-- **One turn of a read** copies what it wants of the sector, and is done or seeks past that. -/
theorem fsReadStep_copy (hctx : w.readCtx p = ⟨file, buffer, .copyContents, rem, cb, cctx⟩) :
    fsReadStep d rx p 0 w =
      let f := w.file file
      let chunk := readChunk f rem
      let w₁ : FsWorld :=
        { w with mem := copySector rx f.currentByte buffer chunk.toInt.toNat w.mem }
      if rem - chunk = 0 then
        ((w₁.setFile file { f with currentByte := f.currentByte + chunk }).setReadCtx p
          ⟨file, buffer + chunk, .done, rem - chunk, cb, cctx⟩, .call (cb, cctx) 0)
      else fsSeekWhence d file chunk (some .cur) .fsReadStep p
        (w₁.setReadCtx p ⟨file, buffer + chunk, .loadContents, rem - chunk, cb, cctx⟩) := by
  rw [fsReadStep, if_neg (by decide)]
  simp only [hctx, fsReadFinish, setReadCtx_readCtx, if_true]
  rfl

theorem fsReadCopies_copy (hctx : w.readCtx p = ⟨file, buffer, .copyContents, rem, cb, cctx⟩) :
    fsReadCopies p 0 w = copies (w.file file).currentByte buffer
      (readChunk (w.file file) rem).toInt.toNat := by
  rw [fsReadCopies, hctx]
  rfl

/-- A read whose request has failed. -/
theorem fsReadStep_error {state : FsReadState} {status : Int}
    (hctx : w.readCtx p = ⟨file, buffer, state, rem, cb, cctx⟩) (hstatus : status ≠ 0) :
    fsReadStep d rx p status w =
      (w.setReadCtx p ⟨file, buffer, .error, rem, cb, cctx⟩, .call (cb, cctx) 1) := by
  rw [fsReadStep, if_pos hstatus]
  simp only [hctx, fsReadFinish, setReadCtx_readCtx]
  rfl

end Steps

theorem fsSeekWhence_mem (d : FatDriver) (file : Ptr) (offset : Word) (whence : Option SeekWhence)
    (cb : FsCallback) (cctx : Ptr) (w : FsWorld) :
    (fsSeekWhence d file offset whence cb cctx w).1.mem = w.mem := by
  rw [fsSeekWhence]
  split
  · rename_i t _
    rcases fsSeekSubmit_cases d file t cb cctx w with h | ⟨-, h | ⟨_, _, -, h⟩⟩ <;> rw [h] <;> rfl
  · rfl

/-- **Nothing else is written to memory.** -/
theorem fsReadStep_mem (d : FatDriver) (rx : Sector) (ctx : Ptr) (status : Int) (w : FsWorld) :
    (fsReadStep d rx ctx status w).1.mem =
      (fsReadCopies ctx status w).foldl (fun m x => store8 m x.2 (rx x.1)) w.mem := by
  obtain ⟨⟨file, buffer, state, rem, cb, cctx⟩, hctx⟩ : ∃ c, w.readCtx ctx = c := ⟨_, rfl⟩
  by_cases hstatus : status = 0
  · subst hstatus
    cases state with
    | copyContents =>
      rw [fsReadStep_copy hctx, fsReadCopies_copy hctx, ← copySector_eq_foldl]
      dsimp only
      split
      · rfl
      · exact fsSeekWhence_mem ..
    | loadContents | seekRead | done | error =>
      rw [fsReadStep, fsReadCopies, if_neg (by decide)]
      simp [hctx, fsReadPostIo, FsWorld.setReadCtx]
  · rw [fsReadStep_error hctx hstatus, fsReadCopies, if_neg fun h => hstatus h.1]
    rfl

/-- Of a seek and a read, every step. -/
theorem fsCode_mem {k : FsClosure} (hk : k.1 = .fsReadStep ∨ k.1 = .fsSeekStep) (d : FatDriver)
    (rx : Sector) (status : Int) (w : FsWorld) :
    (fsCode d rx k status w).1.mem =
      (fsCopies rx k status w).foldl (fun m x => store8 m x.2 (rx x.1)) w.mem := by
  rcases hk with hk | hk <;> rw [fsCode, fsCopies, hk]
  · exact fsReadStep_mem d rx k.2 status w
  · dsimp only
    rw [fsSeekStep]
    dsimp only
    split
    · rfl
    · split
      · rfl
      · split <;> rfl

/-! ## Seeking -/

/-- **One hop of a seek**, on any card: it fails, or moves the file, or goes on. -/
theorem fsSeekStep_cases {d : FatDriver} {rx : Sector} {p file cctx : Ptr} {status : Int}
    {c rem t next : Word} {pos : SeekPosition} {cb : FsCallback} {w : FsWorld}
    (hctx : w.seekCtx p = ⟨.walkFat, file, c, rem, pos, t, cb, cctx⟩)
    (hnext : d.getNextCluster rx c = next) :
    (status ≠ 0 ∨ EndOfChain next) ∧
        (∃ ctx, fsSeekStep d rx p status w = (w.setSeekCtx p ctx, .call (cb, cctx) (-1))) ∨
      (status = 0 ∧ ¬ EndOfChain next) ∧
        (rem - 1 = 0 ∧ (∃ ctx, fsSeekStep d rx p status w =
            ((w.setFile file { w.file file with
              currentCluster := next
              currentSector := pos.sectorInCluster.setWidth 32
              currentByte := pos.byteInSector.setWidth 32
              fileOffset := t }).setSeekCtx p ctx, .call (cb, cctx) 0)) ∨
          rem - 1 ≠ 0 ∧ fsSeekStep d rx p status w =
            (w.setSeekCtx p ⟨.walkFat, file, next, rem - 1, pos, t, cb, cctx⟩,
              .post (d.fatCalcualteLba next) (.fsSeekStep, p))) := by
  rw [fsSeekStep]
  simp only [hctx, hnext, fsSeekFinish, setSeekCtx_seekCtx]
  by_cases hstatus : status = 0
  · rw [if_neg (not_not.2 hstatus)]
    by_cases hend : EndOfChain next
    · exact Or.inl ⟨Or.inr hend, _, if_pos hend⟩
    · rw [if_neg hend]
      refine Or.inr ⟨⟨hstatus, hend⟩, ?_⟩
      by_cases hrem : rem - 1 = 0
      · exact Or.inl ⟨hrem, _, if_pos hrem⟩
      · exact Or.inr ⟨hrem, if_neg hrem⟩
  · exact Or.inl ⟨Or.inl hstatus, _, if_pos hstatus⟩

section Seek

variable {answers : Word → Sector → Int → Prop} {R : FsClosure → FsWorld → FsWorld → Prop}
  {final : FsClosure → Prop} {Q : List (Nat × Ptr) → FsWorld → FsClosure → Int → Prop}
  {I : FsWorld → Prop} {n : Nat} {os : List (Nat × Ptr)} {rx : Sector} {w : FsWorld}
  {file cctx : Ptr} {cb : FsCallback} {t : Word} {f : File}

/-- **The walk ends**, one way or the other, with as many requests as there are clusters to skip.  `J k c`
is what is known of the cluster `c` with `k` to go; the file is `f` until the walk succeeds. -/
theorem completes_walk {d : FatDriver} {p : Ptr} {pos : SeekPosition} {J : Nat → Word → Prop}
    (hI : SeekFrame file I)
    (hR : ∀ w w', R (.fsSeekStep, p) w w' →
      w'.file file = w.file file ∧ w'.seekCtx p = w.seekCtx p ∧ (I w → I w'))
    (hstep : ∀ k c rx, J (k + 1) c → answers (d.fatCalcualteLba c) rx 0 →
      ¬ EndOfChain (d.getNextCluster rx c) → J k (d.getNextCluster rx c))
    (hfail : ∀ k c rx status w, J (k + 1) c → answers (d.fatCalcualteLba c) rx status →
      status ≠ 0 ∨ EndOfChain (d.getNextCluster rx c) → I w → w.file file = f →
        Completes (fsCode d) answers R final fsCopies Q n os rx w (.call (cb, cctx) (-1)))
    (hdone : ∀ c rx w, J 0 c → I w → w.file file = { f with
        currentCluster := c
        currentSector := pos.sectorInCluster.setWidth 32
        currentByte := pos.byteInSector.setWidth 32
        fileOffset := t } →
      Completes (fsCode d) answers R final fsCopies Q n os rx w (.call (cb, cctx) 0))
    {k : Nat} {c rem : Word} (hrem : rem.toNat = k + 1) (hJ : J (k + 1) c) (hIw : I w)
    (hf : w.file file = f) (hctx : w.seekCtx p = ⟨.walkFat, file, c, rem, pos, t, cb, cctx⟩) :
    Completes (fsCode d) answers R final fsCopies Q (n + (k + 1)) os rx w
      (.post (d.fatCalcualteLba c) (.fsSeekStep, p)) := by
  induction k generalizing c rem rx w with
  | zero =>
    refine .post fun rx' status w' ha hw' => ?_
    obtain ⟨hf', hctx', hI'⟩ := hR w w' hw'
    have hpred : rem - 1 = 0 := BitVec.eq_of_toNat_eq (by
      rw [BitVec.toNat_sub, hrem]
      rfl)
    rw [show fsCopies rx' (.fsSeekStep, p) status w' = [] from rfl, List.append_nil]
    change Completes _ _ _ _ _ _ _ _ _ (fsSeekStep d rx' p status w').1 (fsSeekStep d rx' p status w').2
    rcases @fsSeekStep_cases d rx' p file cctx status c rem t _ pos cb w' (hctx'.trans hctx) rfl with
      ⟨hbad, ctx, heq⟩ | ⟨⟨rfl, hgood⟩, ⟨-, ctx, heq⟩ | ⟨hne, -⟩⟩
    · rw [heq]
      exact hfail 0 c rx' status _ hJ ha hbad (hI.seekCtx _ _ _ (hI' hIw)) (hf'.trans hf)
    · rw [heq]
      refine hdone _ rx' _ (hstep 0 c rx' hJ ha hgood) (hI.seekCtx _ _ _ (hI.file _ _ (hI' hIw))) ?_
      exact (setFile_file ..).trans (by rw [hf', hf])
    · exact absurd hpred hne
  | succ k ih =>
    refine .post fun rx' status w' ha hw' => ?_
    obtain ⟨hf', hctx', hI'⟩ := hR w w' hw'
    have hpred : (rem - 1).toNat = k + 1 := by
      have := rem.isLt
      rw [BitVec.toNat_sub, hrem]
      change (2 ^ 32 - 1 + _) % 2 ^ 32 = _
      omega
    rw [show fsCopies rx' (.fsSeekStep, p) status w' = [] from rfl, List.append_nil]
    change Completes _ _ _ _ _ _ _ _ _ (fsSeekStep d rx' p status w').1 (fsSeekStep d rx' p status w').2
    rcases @fsSeekStep_cases d rx' p file cctx status c rem t _ pos cb w' (hctx'.trans hctx) rfl with
      ⟨hbad, ctx, heq⟩ | ⟨⟨rfl, hgood⟩, ⟨hzero, -⟩ | ⟨-, heq⟩⟩
    · rw [heq]
      exact (hfail (k + 1) c rx' status _ hJ ha hbad (hI.seekCtx _ _ _ (hI' hIw))
        (hf'.trans hf)).mono (Nat.le_add_right n (k + 1))
    · rw [hzero] at hpred
      exact absurd hpred (Nat.succ_ne_zero k).symm
    · rw [heq]
      exact ih hpred (hstep (k + 1) c rx' hJ ha hgood) (hI.seekCtx _ _ _ (hI' hIw)) (hf'.trans hf)
        (setSeekCtx_seekCtx ..)

/-- **A seek ends**, wherever its file is and whatever the table holds, with the file as it was or moved
to the target. -/
theorem completes_seek {d : FatDriver} (hI : SeekFrame file I)
    (hR : ∀ p w w', R (.fsSeekStep, p) w w' →
      w'.file file = w.file file ∧ w'.seekCtx p = w.seekCtx p ∧ (I w → I w'))
    (hIw : I w)
    (hfail : ∀ rx w', I w' → w'.file file = w.file file →
      Completes (fsCode d) answers R final fsCopies Q n os rx w' (.call (cb, cctx) (-1)))
    (hdone : ∀ c rx w', I w' → w'.file file = { w.file file with
        currentCluster := c
        currentSector := (seekDecompose d t).sectorInCluster.setWidth 32
        currentByte := (seekDecompose d t).byteInSector.setWidth 32
        fileOffset := t } →
      Completes (fsCode d) answers R final fsCopies Q n os rx w' (.call (cb, cctx) 0)) :
    Completes (fsCode d) answers R final fsCopies Q
      (n + t.toNat / (512 * d.sectorsPerCluster.toNat)) os rx (fsSeekSubmit d file t cb cctx w).1
      (fsSeekSubmit d file t cb cctx w).2 := by
  have hidx : (seekDecompose d t).clusterIndex.toNat =
      t.toNat / (512 * d.sectorsPerCluster.toNat) := by
    rw [seekDecompose, BitVec.toNat_udiv, d.clusterBytes_toNat]
  rw [← hidx]
  rcases fsSeekSubmit_cases d file t cb cctx w with h | ⟨-, h | ⟨start, skip, ⟨hne, hle⟩, h⟩⟩
  · rw [h]
    exact (hfail rx w hIw rfl).mono (Nat.le_add_right ..)
  · rw [h]
    exact (hdone _ rx _ (hI.file _ _ hIw) (setFile_file ..)).mono (Nat.le_add_right ..)
  · rw [h]
    obtain ⟨k, hk⟩ : ∃ k, skip.toNat = k + 1 :=
      Nat.exists_eq_succ_of_ne_zero fun h0 => hne (BitVec.eq_of_toNat_eq h0)
    rw [BitVec.le_def, hk] at hle
    exact (completes_walk (J := fun _ _ => True) hI (hR _) (fun _ _ _ _ _ _ => trivial)
      (fun _ _ rx _ w' _ _ _ => hfail rx w') (fun c rx w' _ => hdone c rx w') hk trivial
      (hI.seekCtx _ _ _ (hI.kmalloc _ hIw)) rfl (setSeekCtx_seekCtx ..)).mono
        (Nat.add_le_add_left hle n)

end Seek

/-- What the others may do while a request of a seek is outstanding: anything that leaves its file and
its context alone. -/
def SeekRely (file : Ptr) (k : FsClosure) (w w' : FsWorld) : Prop :=
  w'.file file = w.file file ∧ w'.seekCtx k.2 = w.seekCtx k.2

/-- The `k`-th byte copied is from inside the sector, and goes to place `k` of the `n` of the buffer. -/
def CopiesInto (buffer : Ptr) (n : Nat) (os : List (Nat × Ptr)) : Prop :=
  os.length ≤ n ∧ ∀ k x, os[k]? = some x → x.1 < 512 ∧ x.2 = buffer + BitVec.ofNat 32 k

theorem length_copies (b : Word) (dst : Ptr) (m : Nat) : (copies b dst m).length = m := by
  rw [copies, List.length_map, List.length_range]

/-- What is copied next goes to the places after. -/
theorem CopiesInto.append {buffer : Ptr} {n m : Nat} {os : List (Nat × Ptr)} {b : Word}
    (h : CopiesInto buffer n os) (hb : b.toNat + m ≤ 512) (hm : os.length + m ≤ n) :
    CopiesInto buffer n (os ++ copies b (buffer + BitVec.ofNat 32 os.length) m) := by
  refine ⟨by rw [List.length_append, length_copies]; exact hm, fun k x hx => ?_⟩
  rw [List.getElem?_append] at hx
  split at hx
  · exact h.2 k x hx
  · rename_i hk
    rw [copies, List.getElem?_map, Option.map_eq_some_iff] at hx
    obtain ⟨i, hi, rfl⟩ := hx
    obtain ⟨hlt, rfl⟩ := List.getElem?_eq_some_iff.1 hi
    rw [List.length_range] at hlt
    rw [List.getElem_range]
    refine ⟨?_, ?_⟩
    · dsimp only
      rw [BitVec.toNat_add, BitVec.toNat_ofNat]
      omega
    · dsimp only
      rw [BitVec.add_assoc, ← BitVec.ofNat_add, Nat.add_sub_cancel' (Nat.le_of_not_lt hk)]

section Read

variable {answers : Word → Sector → Int → Prop} {R : FsClosure → FsWorld → FsWorld → Prop}
  {final : FsClosure → Prop} {d : FatDriver} {p file buffer cctx : Ptr} {cb : FsCallback} {n : Nat}

/-- A read whose seek has failed. -/
theorem completes_readFailed {Q : List (Nat × Ptr) → FsWorld → FsClosure → Int → Prop} {m : Nat}
    {os : List (Nat × Ptr)} {rem dst : Word} {rx : Sector} {w : FsWorld}
    (hfresh : ¬ final (.fsReadStep, p))
    (hctx : w.readCtx p = ⟨file, dst, .loadContents, rem, cb, cctx⟩)
    (h : Completes (fsCode d) answers R final fsCopies Q m os rx
      (w.setReadCtx p ⟨file, dst, .error, rem, cb, cctx⟩) (.call (cb, cctx) 1)) :
    Completes (fsCode d) answers R final fsCopies Q m os rx w (.call (.fsReadStep, p) (-1)) := by
  refine .call hfresh ?_
  change Completes _ _ _ _ _ _ _ _ _ (fsReadStep d rx p (-1) w).1 (fsReadStep d rx p (-1) w).2
  rw [fsReadStep_error hctx (by decide),
    show fsCopies rx (.fsReadStep, p) (-1) w = [] from rfl, List.append_nil]
  exact h

/-- A read whose seek is done asks for the sector that the file is at. -/
theorem completes_readLoads {Q : List (Nat × Ptr) → FsWorld → FsClosure → Int → Prop} {m : Nat}
    {os : List (Nat × Ptr)} {rem dst : Word} {rx : Sector} {w : FsWorld}
    (hfresh : ¬ final (.fsReadStep, p))
    (hctx : w.readCtx p = ⟨file, dst, .loadContents, rem, cb, cctx⟩)
    (h : Completes (fsCode d) answers R final fsCopies Q m os rx
      (w.setReadCtx p ⟨file, dst, .copyContents, rem, cb, cctx⟩)
      (.post (fileLba d (w.file file)) (.fsReadStep, p))) :
    Completes (fsCode d) answers R final fsCopies Q m os rx w (.call (.fsReadStep, p) 0) := by
  have hnone : fsCopies rx (.fsReadStep, p) 0 w = [] := by
    change fsReadCopies p 0 w = []
    rw [fsReadCopies, hctx, if_neg fun h => nomatch h.2]
  refine .call hfresh ?_
  change Completes _ _ _ _ _ _ _ _ _ (fsReadStep d rx p 0 w).1 (fsReadStep d rx p 0 w).2
  rw [fsReadStep_load hctx, hnone, List.append_nil]
  exact h

end Read

/-- The record of a file that has been opened. -/
def DirEntry.openedFile (e : DirEntry) : File := ⟨0, e.cluster, e.cluster, 0, 0, 0, e.fileSize⟩

/-- **What an open stores in a file.** -/
theorem fsOpenStep_file (d : FatDriver) (rx : Sector) (p : Ptr) (status : Int) (w : FsWorld)
    (file : Ptr) : (fsOpenStep d rx p status w).1.file file = w.file file ∨
      ∃ e : DirEntry, (fsOpenStep d rx p status w).1.file file = e.openedFile := by
  have hfinish : ∀ w : FsWorld, (fsOpenFinish p w).1.file = w.file := by
    intro w
    rw [fsOpenFinish]
    dsimp only
    split
    · rfl
    · split <;> rfl
  have hstore : ∀ s c (w : FsWorld), (storeParentCluster s c w).file = w.file := by
    intro s c w
    rw [storeParentCluster_eq]
  rw [fsOpenStep]
  dsimp only
  split
  · exact Or.inl (congrFun (hfinish _) file)
  · split
    · split
      · exact Or.inl (congrFun (hfinish _) file)
      · split
        · rename_i e _ _
          by_cases hsame : file = (w.openCtx p).outFile
          · refine Or.inr ⟨e, (congrFun (hfinish _) file).trans ?_⟩
            rw [hsame]
            exact setFile_file ..
          · exact Or.inl ((congrFun (hfinish _) file).trans (Function.update_of_ne hsame ..))
        · exact Or.inl (congrFun (hstore ..) file)
      · split <;> exact Or.inl rfl
    · split
      · exact Or.inl (congrFun (hfinish _) file)
      · exact Or.inl rfl
    all_goals exact Or.inl rfl

end RiscyOS
