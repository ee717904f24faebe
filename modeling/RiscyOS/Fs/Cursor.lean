import RiscyOS.Fs.ReadSpec

/-!
# One file, read again and again

After a read the offset stays behind and only the byte in the sector has moved on.  `CursorAt s x`
says so: the file would next be read from position `x`, while its offset, cluster and sector are
those of position `s` in the same sector.  From such a file a read is right as long as it stays in
the sector (`reaches_read`), and a seek is right as before, as it looks at the offset and the
cluster only (`reaches_seek`).

Both are about the file system on its own, and both leave everything else in the world alone, which
is `Untouched`.
-/

set_option autoImplicit false

namespace RiscyOS

open Memory Callback

/-- Nothing but files, contexts and `n` bytes of the buffer has changed. -/
structure Untouched (buffer : Ptr) (n : Nat) (w w' : FsWorld) : Prop where
  elfCtx : w'.elfCtx = w.elfCtx
  region : w'.region = w.region
  pcb : w'.pcb = w.pcb
  cell : w'.cell = w.cell
  kmallocRegions : w'.kmallocRegions = w.kmallocRegions
  uallocs : w'.uallocs = w.uallocs
  mem : ∀ a, n ≤ (a - buffer).toNat → w'.mem a = w.mem a

theorem Untouched.refl (buffer : Ptr) (n : Nat) (w : FsWorld) : Untouched buffer n w w :=
  ⟨rfl, rfl, rfl, rfl, rfl, rfl, fun _ _ => rfl⟩

theorem readFrame_untouched (file buffer : Ptr) (n : Nat) (w : FsWorld) :
    ReadFrame file buffer n (Untouched buffer n w) where
  kmalloc _ h := ⟨h.elfCtx, h.region, h.pcb, h.cell, h.kmallocRegions, h.uallocs, h.mem⟩
  seekCtx _ _ _ h := ⟨h.elfCtx, h.region, h.pcb, h.cell, h.kmallocRegions, h.uallocs, h.mem⟩
  file _ _ h := ⟨h.elfCtx, h.region, h.pcb, h.cell, h.kmallocRegions, h.uallocs, h.mem⟩
  readCtx _ _ _ h := ⟨h.elfCtx, h.region, h.pcb, h.cell, h.kmallocRegions, h.uallocs, h.mem⟩
  mem _ _ hm h := ⟨h.elfCtx, h.region, h.pcb, h.cell, h.kmallocRegions, h.uallocs,
    fun a ha => (hm a ha).trans (h.mem a ha)⟩

section Cursor

variable (v : Volume) (l : List Word)

/-- **The file is read from position `x`**, with everything but the byte at position `s` of the same
sector. -/
structure CursorAt (f : File) (s x : Nat) : Prop where
  offset : f.fileOffset.toNat = s
  cluster : l[s / v.bytesPerCluster]? = some f.currentCluster
  sector : f.currentSector.toNat = s % v.bytesPerCluster / 512
  byte : 512 * (s / 512) + f.currentByte.toNat = x

variable {v l} {f : File} {file buffer cctx : Ptr} {cb : FsCallback} {w : FsWorld} {s x : Nat}

theorem PositionAt.cursorAt (h : PositionAt v l f x) : CursorAt v l f x x := by
  refine ⟨h.offset, h.cluster, h.sector, ?_⟩
  rw [h.byte]
  omega

theorem CursorAt.positionAt (h : CursorAt v l f x x) : PositionAt v l f x := by
  refine ⟨h.offset, h.cluster, h.sector, ?_⟩
  have hbyte := h.byte
  omega

/-- The last chunk of a read is in the sector of its last byte. -/
theorem lastChunk_div {o n : Nat} (hn : 0 < n) : lastChunk o n / 512 = (o + n - 1) / 512 := by
  rw [lastChunk, if_neg (by omega)]
  omega

/-- Where a read leaves the file. -/
theorem FileOn.cursorAt_afterRead {o n : Nat} (h : FileOn v l f) (hpos : PositionAt v l f o)
    (hsize : o + n ≤ f.fileSize.toNat) :
    CursorAt v l (f.afterRead v l o n) (lastChunk o n) (o + n) := by
  have hhead : PositionAt v l (f.seekTo v l (lastChunk o n)) (lastChunk o n) := by
    rcases Nat.eq_zero_or_pos n with rfl | hn
    · rw [show lastChunk o 0 = o from if_pos rfl, ← hpos.eq_seekTo]
      exact hpos
    · exact h.positionAt_seekTo ((lastChunk_lt hn).trans_le hsize)
  have hin : lastChunk o n ≤ o + n ∧ o + n ≤ 512 * (lastChunk o n / 512) + 512 := by
    rw [lastChunk]
    split <;> omega
  refine ⟨hhead.offset, hhead.cluster, hhead.sector, ?_⟩
  rw [File.afterRead, BitVec.toNat_ofNat, Nat.mod_eq_of_lt (by omega)]
  omega

/-- What a read of `n` bytes from `x` does to its file and its buffer: the bytes are there, and the
file is read next from the byte after them. -/
structure ReadsOn (v : Volume) (l : List Word) (file buffer : Ptr) (s x n : Nat) (w w' : FsWorld) :
    Prop where
  untouched : Untouched buffer n w w'
  copied : ∀ i < n, w'.mem (buffer + BitVec.ofNat 32 i) = v.fileByte l (x + i)
  fileOn : FileOn v l (w'.file file)
  size : (w'.file file).fileSize = (w.file file).fileSize
  cursor : ∃ s', CursorAt v l (w'.file file) s' (x + n) ∧ (n = 0 → s' = s) ∧
    (0 < n → s' / 512 = (x + n - 1) / 512)

/-- A read that stays in the sector is right wherever the offset is. -/
theorem ensures_read_within {bytes : Word} (hfile : FileOn v l (w.file file))
    (hcur : CursorAt v l (w.file file) s x)
    (hin : (w.file file).currentByte.toNat + bytes.toNat ≤ 512) (rx : Sector) :
    Ensures (fsCode v.toFatDriver) v.disk (fun _ => Eq)
      (fun w' k status => k = (cb, cctx) ∧ status = 0 ∧
        ReadsOn v l file buffer s x bytes.toNat w w') rx
      (fsReadSubmit v.toFatDriver file buffer bytes cb cctx w).1
      (fsReadSubmit v.toFatDriver file buffer bytes cb cctx w).2 := by
  rw [fsReadSubmit_eq]
  refine .post fun w' hw' => ?_
  subst hw'
  have hcode : fsCode v.toFatDriver (v.disk (fileLba v.toFatDriver (w.file file)))
      (.fsReadStep, w.kmalloc.1) 0 (w.kmalloc.2.setReadCtx w.kmalloc.1
        ⟨file, buffer, .copyContents, bytes, cb, cctx⟩) = _ :=
    @fsReadStep_last v.toFatDriver _ w.kmalloc.1 file buffer bytes cb cctx _ (w.file file) rfl
      (setReadCtx_readCtx ..) hin
  have hbyte := hcur.byte
  have hlba : fileLba v.toFatDriver (w.file file) = v.clusterToLba
      (l.getD (s / v.bytesPerCluster) 0) + BitVec.ofNat 32 (s % v.bytesPerCluster / 512) := by
    rw [fileLba, List.getD_eq_getElem?_getD, hcur.cluster, Option.getD_some, ← hcur.sector,
      BitVec.ofNat_toNat, BitVec.setWidth_eq]
  have hnext : ((w.file file).currentByte + bytes).toNat =
      (w.file file).currentByte.toNat + bytes.toNat := by
    rw [BitVec.toNat_add]
    omega
  have hfile' : ∀ (w : FsWorld) (f : File) (p : Ptr) (c : FsReadCtx),
      ((w.setFile file f).setReadCtx p c).file file = f := fun w f _ _ => setFile_file w file f
  rw [hcode]
  refine .done ⟨rfl, rfl, ?_, fun i hi => ?_, ?_, ?_, s, ?_, fun _ => rfl, fun hn => by omega⟩
  · refine (readFrame_untouched file buffer bytes.toNat w).readCtx _ _ _
      ((readFrame_untouched file buffer bytes.toNat w).file _ _
        ((readFrame_untouched file buffer bytes.toNat w).mem _ _ (fun a ha => ?_) ?_))
    · rw [copySector_apply _ _ _ _ _ (by omega), if_neg (by omega)]
    · exact ⟨rfl, rfl, rfl, rfl, rfl, rfl, fun _ _ => rfl⟩
  · have hsub : buffer + BitVec.ofNat 32 i - buffer = BitVec.ofNat 32 i := by
      rw [BitVec.add_comm, BitVec.add_sub_cancel]
    have hi' : (BitVec.ofNat 32 i).toNat = i := Nat.mod_eq_of_lt (by omega)
    refine (copySector_apply _ _ _ _ _ (by omega)).trans ?_
    rw [hsub, hi', if_pos hi, hlba, fileByte_eq (x := s) (by omega), BitVec.toNat_add, hi']
    congr 1
    omega
  · rw [hfile']
    exact ⟨hfile.chain, hfile.size⟩
  · rw [hfile']
  · rw [hfile']
    refine ⟨hcur.offset, hcur.cluster, hcur.sector, ?_⟩
    rw [hnext]
    omega

/-- **A read is right** from a file whose offset is up to date, and otherwise if it stays in the
sector. -/
theorem reaches_read {bytes : Word} (hfile : FileOn v l (w.file file))
    (hcur : CursorAt v l (w.file file) s x)
    (hin : s = x ∨ (w.file file).currentByte.toNat + bytes.toNat ≤ 512)
    (hsize : x + bytes.toNat ≤ (w.file file).fileSize.toNat) (hbytes : bytes.toNat < 2 ^ 31)
    (rx : Sector) :
    ∃ rx' w', Reaches (fsCode v.toFatDriver) v.disk
        ⟨rx, (fsReadSubmit v.toFatDriver file buffer bytes cb cctx w).1,
          (fsReadSubmit v.toFatDriver file buffer bytes cb cctx w).2⟩
        ⟨rx', w', .call (cb, cctx) 0⟩ ∧ ReadsOn v l file buffer s x bytes.toNat w w' := by
  rcases hin with rfl | hin
  · have hens := @ensures_read v l file buffer s cb cctx w (fun _ => Eq)
      (Untouched buffer bytes.toNat w) bytes (fun _ _ _ hw => hw ▸ ⟨readRely_refl .., id⟩)
      (readFrame_untouched ..) hfile hcur.positionAt hsize hbytes (.refl ..) rx
    obtain ⟨rx', w', k, status, hreach, hdone, huntouched⟩ := hens.reaches fun _ _ => rfl
    rw [hdone.callback, hdone.status] at hreach
    refine ⟨rx', w', hreach, huntouched, hdone.copied, ?_, ?_, lastChunk s bytes.toNat, ?_,
      fun hn => if_pos hn, lastChunk_div⟩
    · rw [hdone.position]
      exact ⟨hfile.chain, hfile.size⟩
    · rw [hdone.position]
      rfl
    · rw [hdone.position]
      exact hfile.cursorAt_afterRead hcur.positionAt hsize
  · obtain ⟨rx', w', k, status, hreach, rfl, rfl, hread⟩ :=
      (@ensures_read_within v l file buffer cctx cb w s x bytes hfile hcur hin rx).reaches
        fun _ _ => rfl
    exact ⟨rx', w', hreach, hread⟩

/-- **A seek is right** unless it goes from a later cluster back to the first. -/
theorem reaches_seek {t : Word} (hfile : FileOn v l (w.file file))
    (hcur : CursorAt v l (w.file file) s x) (ht : t.toNat < (w.file file).fileSize.toNat)
    (hnot : ¬ (t.toNat / v.bytesPerCluster = 0 ∧ s / v.bytesPerCluster ≠ 0)) (rx : Sector) :
    ∃ rx' w', Reaches (fsCode v.toFatDriver) v.disk
        ⟨rx, (fsSeekWhence v.toFatDriver file t (some .set) cb cctx w).1,
          (fsSeekWhence v.toFatDriver file t (some .set) cb cctx w).2⟩
        ⟨rx', w', .call (cb, cctx) 0⟩ ∧ Untouched 0 0 w w' ∧ FileOn v l (w'.file file) ∧
      (w'.file file).fileSize = (w.file file).fileSize ∧
      CursorAt v l (w'.file file) t.toNat t.toNat := by
  rw [fsSeekWhence_eq rfl]
  have hens := @ensures_seek v l file cctx t w s (fun _ => Eq)
    (fun w' k status => k = (cb, cctx) ∧ status = 0 ∧ Untouched 0 0 w w' ∧
      w'.file file = (w.file file).seekTo v l t.toNat) cb rx (Untouched 0 0 w)
    (readFrame_untouched file 0 0 w).toSeekFrame hfile hcur.offset hcur.cluster ht hnot
    (fun p w₁ w₂ hw => hw ▸ ⟨rfl, rfl, id⟩) (.refl ..)
    fun rx w' hI hf => .done ⟨rfl, rfl, hI, hf⟩
  obtain ⟨rx', w', k, status, hreach, rfl, rfl, huntouched, hf⟩ := hens.reaches fun _ _ => rfl
  refine ⟨rx', w', hreach, huntouched, ?_, ?_, ?_⟩
  · rw [hf]
    exact ⟨hfile.chain, hfile.size⟩
  · rw [hf]
    rfl
  · rw [hf]
    exact (hfile.positionAt_seekTo ht).cursorAt

end Cursor

end RiscyOS
