import RiscyOS.Fs.SeekSpec
import RiscyOS.Io.Client

/-!
# What a read delivers

A read alternates between copying from the sector in the receive buffer and seeking past what it
copied.  Its induction carries, after `k` bytes (`ReadState`): the file moved `k` bytes on, the
context pointing `k` bytes into the buffer, and the first `k` bytes of the buffer right.  In between
stands a seek, which is done at once within a cluster and reads the allocation table at its end; the
others may meanwhile do what they like, as long as they leave the file, the contexts and the buffer
of this read alone (`ReadRely`).
-/

set_option autoImplicit false

namespace RiscyOS

open Memory Callback

/-! ## Copying -/

/-- **The copy loop** fills `n` bytes at `dst` and touches nothing else. -/
theorem copySector_apply (s : Sector) (b : Word) (dst : Ptr) (m : Mem) (a : Word) {n : Nat}
    (hn : n ≤ 2 ^ 32) :
    copySector s b dst n m a =
      if (a - dst).toNat < n then s (b + (a - dst)).toNat else m a := by
  induction n with
  | zero => rw [copySector, if_neg (Nat.not_lt_zero _)]
  | succ n ih =>
    rw [copySector, store8]
    by_cases ha : a = dst + BitVec.ofNat 32 n
    · have hsub : a - dst = BitVec.ofNat 32 n := by rw [ha, BitVec.add_comm, BitVec.add_sub_cancel]
      have hlt : (BitVec.ofNat 32 n).toNat < n + 1 := by
        rw [BitVec.toNat_ofNat]
        exact Nat.lt_succ_of_le (Nat.mod_le _ _)
      rw [if_pos ha, hsub, if_pos hlt]
    · rw [if_neg ha, ih (by omega)]
      have hne : (a - dst).toNat ≠ n := by
        intro heq
        refine ha ?_
        rw [← heq, add_ofNat_toNat_sub]
      by_cases hlt : (a - dst).toNat < n
      · rw [if_pos hlt, if_pos (by omega)]
      · rw [if_neg hlt, if_neg (by omega)]

section FileByte

variable {v : Volume} {l : List Word} {x y i : Nat}

/-- Positions in the same sector are in the same cluster. -/
theorem fileByte_eq (h : y / 512 = x / 512) :
    v.fileByte l y = v.disk (v.clusterToLba (l.getD (x / v.bytesPerCluster) 0) +
      BitVec.ofNat 32 (x % v.bytesPerCluster / 512)) (y % 512) := by
  rw [Volume.fileByte, Volume.bytesPerCluster, ← Nat.div_div_eq_div_mul, ← Nat.div_div_eq_div_mul,
    Nat.mod_mul_right_div_self, Nat.mod_mul_right_div_self, h]

theorem fileByte_add (h : x % 512 + i < 512) :
    v.fileByte l (x + i) = v.disk (v.clusterToLba (l.getD (x / v.bytesPerCluster) 0) +
      BitVec.ofNat 32 (x % v.bytesPerCluster / 512)) (x % 512 + i) := by
  have hmod : (x + i) % 512 = x % 512 + i := by omega
  rw [← hmod]
  exact fileByte_eq (by omega)

end FileByte

/-! ## The steps of a read -/

section Steps

variable {d : FatDriver} {rx : Sector} {p file buffer : Ptr} {rem : Word} {cb : FsCallback}
  {cctx : Ptr} {w : FsWorld} {f : File}

theorem toInt_toNat {x : Word} (h : x.toNat < 2 ^ 31) : x.toInt.toNat = x.toNat := by
  rw [BitVec.toInt_eq_toNat_of_lt (by omega), Int.toNat_natCast]

theorem toNat_lt_of_toInt_nonneg {x : Word} (h : 0 ≤ x.toInt) : x.toNat < 2 ^ 31 := by
  rw [BitVec.toInt_eq_toNat_cond] at h
  have := x.isLt
  split at h <;> omega

/-- The read, submitted. -/
theorem fsReadSubmit_eq {bytes : Word} :
    fsReadSubmit d file buffer bytes cb cctx w =
      (w.kmalloc.2.setReadCtx w.kmalloc.1 ⟨file, buffer, .copyContents, bytes, cb, cctx⟩,
        .post (fileLba d (w.file file)) (.fsReadStep, w.kmalloc.1)) := by
  simp only [fsReadSubmit, fsReadPostIo, setReadCtx_readCtx, setReadCtx_setReadCtx]
  rfl

/-- The last copy: what is left ends in this sector. -/
theorem fsReadStep_last (hf : w.file file = f)
    (hctx : w.readCtx p = ⟨file, buffer, .copyContents, rem, cb, cctx⟩)
    (hlast : f.currentByte.toNat + rem.toNat ≤ 512) :
    fsReadStep d rx p 0 w =
      ((({ w with mem := copySector rx f.currentByte buffer rem.toNat w.mem } : FsWorld).setFile file
        { f with currentByte := f.currentByte + rem }).setReadCtx p
          ⟨file, buffer + rem, .done, 0, cb, cctx⟩, .call (cb, cctx) 0) := by
  have hcopy : (if 512 ≤ f.currentByte + rem then 512 - f.currentByte else rem) = rem := by
    split
    · rename_i hle
      rw [BitVec.le_def, toNat_512, BitVec.toNat_add] at hle
      have heq : f.currentByte.toNat + rem.toNat = 512 := by omega
      refine BitVec.eq_of_toNat_eq ?_
      rw [BitVec.toNat_sub, toNat_512]
      omega
    · rfl
  rw [fsReadStep, if_neg (by decide)]
  simp only [hctx, hf, hcopy]
  have hzero : rem - rem = (0 : Word) := BitVec.sub_self rem
  rw [hzero, if_pos rfl, toInt_toNat (by omega)]
  simp [fsReadFinish]

/-- Any other copy takes the rest of the sector, and seeks past it. -/
theorem fsReadStep_more (hf : w.file file = f)
    (hctx : w.readCtx p = ⟨file, buffer, .copyContents, rem, cb, cctx⟩)
    (hbyte : f.currentByte.toNat < 512) (hrem : rem.toNat < 2 ^ 31)
    (hmore : 512 < f.currentByte.toNat + rem.toNat) :
    fsReadStep d rx p 0 w =
      fsSeekWhence d file (512 - f.currentByte) (some .cur) .fsReadStep p
        (({ w with mem := copySector rx f.currentByte buffer (512 - f.currentByte.toNat) w.mem } :
          FsWorld).setReadCtx p ⟨file, buffer + (512 - f.currentByte), .loadContents,
            rem - (512 - f.currentByte), cb, cctx⟩) := by
  have hle : (512 : Word) ≤ f.currentByte + rem := by
    rw [BitVec.le_def, toNat_512, BitVec.toNat_add]
    omega
  have hchunk : ((512 : Word) - f.currentByte).toNat = 512 - f.currentByte.toNat := by
    rw [BitVec.toNat_sub, toNat_512]
    omega
  have hleft : rem - (512 - f.currentByte) ≠ 0 := by
    intro heq
    have htoNat := congrArg BitVec.toNat heq
    rw [BitVec.toNat_sub, hchunk] at htoNat
    change _ = 0 at htoNat
    omega
  rw [fsReadStep, if_neg (by decide)]
  simp only [hctx, hf, if_pos hle, if_neg hleft]
  rw [toInt_toNat (by omega), hchunk]

/-- After the seek, the sector the file is now at is asked for. -/
theorem fsReadStep_load (hctx : w.readCtx p = ⟨file, buffer, .loadContents, rem, cb, cctx⟩) :
    fsReadStep d rx p 0 w =
      (w.setReadCtx p ⟨file, buffer, .copyContents, rem, cb, cctx⟩,
        .post (fileLba d (w.file file)) (.fsReadStep, p)) := by
  rw [fsReadStep, if_neg (by decide)]
  simp only [hctx, fsReadPostIo]

end Steps

/-! ## The whole read -/

/-- What the others may do while a request of the read is outstanding: anything that leaves the
file, the context of the read, that of its seek, and its buffer alone. -/
def ReadRely (file p buffer : Ptr) (n : Nat) (k : FsClosure) (w w' : FsWorld) : Prop :=
  w'.file file = w.file file ∧ w'.readCtx p = w.readCtx p ∧
    (k.1 = .fsSeekStep → w'.seekCtx k.2 = w.seekCtx k.2) ∧
    ∀ i < n, w'.mem (buffer + BitVec.ofNat 32 i) = w.mem (buffer + BitVec.ofNat 32 i)

/-- Where the last sector of a read of `n` bytes from `o` is begun. -/
def lastChunk (o n : Nat) : Nat := if n = 0 then o else max o (512 * ((o + n - 1) / 512))

/-- The file after a read of `n` bytes from `o`: it is at the beginning of the last chunk, but for
the byte. -/
def File.afterRead (v : Volume) (l : List Word) (f : File) (o n : Nat) : File :=
  { f.seekTo v l (lastChunk o n) with
    currentByte := BitVec.ofNat 32 (lastChunk o n % 512 + (o + n - lastChunk o n)) }

section Read

variable (v : Volume) (l : List Word) (file p buffer : Ptr) (f : File) (o n : Nat)
  (cb : FsCallback) (cctx : Ptr)

/-- **The state of a read** that has delivered `k` bytes and waits for the sector of the next. -/
structure ReadState (k : Nat) (w : FsWorld) : Prop where
  position : w.file file = f.seekTo v l (o + k)
  ctx : w.readCtx p =
    ⟨file, buffer + BitVec.ofNat 32 k, .copyContents, BitVec.ofNat 32 (n - k), cb, cctx⟩
  copied : ∀ i < k, w.mem (buffer + BitVec.ofNat 32 i) = v.fileByte l (o + i)

/-- A read that has delivered `k` bytes and seeks past them. -/
structure ReadSeeking (k : Nat) (w : FsWorld) : Prop where
  ctx : w.readCtx p =
    ⟨file, buffer + BitVec.ofNat 32 k, .loadContents, BitVec.ofNat 32 (n - k), cb, cctx⟩
  copied : ∀ i < k, w.mem (buffer + BitVec.ofNat 32 i) = v.fileByte l (o + i)

/-- How a read ends. -/
structure ReadDone (w : FsWorld) (k : FsClosure) (status : Int) : Prop where
  callback : k = (cb, cctx)
  status : status = 0
  position : w.file file = f.afterRead v l o n
  copied : ∀ i < n, w.mem (buffer + BitVec.ofNat 32 i) = v.fileByte l (o + i)

variable {v l file p buffer f o n cb cctx} {k : Nat} {w w' : FsWorld}

theorem ReadState.rely {c : FsClosure} (h : ReadState v l file p buffer f o n cb cctx k w)
    (hk : k ≤ n) (hR : ReadRely file p buffer n c w w') :
    ReadState v l file p buffer f o n cb cctx k w' := by
  obtain ⟨hfile, hctx, -, hmem⟩ := hR
  refine ⟨hfile.trans h.position, hctx.trans h.ctx, fun i hi => ?_⟩
  rw [hmem i (by omega)]
  exact h.copied i hi

/-- The byte of a position, as it is stored in the file. -/
theorem seekTo_currentByte (x : Nat) : ((f.seekTo v l x).currentByte).toNat = x % 512 := by
  rw [File.seekTo, BitVec.toNat_ofNat]
  omega

/-- **One copy** delivers the bytes from position `o + k` to the end of the sector or of the read. -/
theorem ReadState.copy {m : Nat} (h : ReadState v l file p buffer f o n cb cctx k w)
    (hk : k + m ≤ n) (hn : n < 2 ^ 31) (hm : (o + k) % 512 + m ≤ 512) :
    ∀ i < k + m, copySector (v.disk (fileLba v.toFatDriver (w.file file)))
        (f.seekTo v l (o + k)).currentByte (buffer + BitVec.ofNat 32 k) m w.mem
        (buffer + BitVec.ofNat 32 i) = v.fileByte l (o + i) := by
  intro i hi
  have hsub : (buffer + BitVec.ofNat 32 i - (buffer + BitVec.ofNat 32 k)).toNat =
      (i + 2 ^ 32 - k) % 2 ^ 32 := by
    simp only [BitVec.toNat_sub, BitVec.toNat_add, BitVec.toNat_ofNat]
    omega
  rw [copySector_apply _ _ _ _ _ (by omega), hsub]
  by_cases hik : i < k
  · rw [if_neg (by omega)]
    exact h.copied i hik
  · rw [if_pos (by omega), show o + i = o + k + (i - k) by omega, fileByte_add (by omega),
      h.position]
    have hidx : ((f.seekTo v l (o + k)).currentByte +
        (buffer + BitVec.ofNat 32 i - (buffer + BitVec.ofNat 32 k))).toNat =
        (o + k) % 512 + (i - k) := by
      rw [BitVec.toNat_add, hsub, seekTo_currentByte]
      omega
    rw [hidx]
    rfl

/-- What is known of the world and neither of the file nor of the buffer: it is kept by what a read
stores. -/
structure ReadFrame (file buffer : Ptr) (n : Nat) (I : FsWorld → Prop) : Prop
    extends SeekFrame file I where
  readCtx : ∀ w p c, I w → I (w.setReadCtx p c)
  mem : ∀ w m, (∀ a, n ≤ (a - buffer).toNat → m a = w.mem a) → I w → I { w with mem := m }

/-- The copy stays in the buffer. -/
theorem copySector_outside {s : Sector} {b : Word} {m : Nat} (hk : k + m ≤ n) (hn : n < 2 ^ 31)
    (μ : Mem) (a : Word) (ha : n ≤ (a - buffer).toNat) :
    copySector s b (buffer + BitVec.ofNat 32 k) m μ a = μ a := by
  have hsub : (a - (buffer + BitVec.ofNat 32 k)).toNat = (a - buffer).toNat - k := by
    have hlt := buffer.isLt
    simp only [BitVec.toNat_sub, BitVec.toNat_add, BitVec.toNat_ofNat] at ha ⊢
    omega
  rw [copySector_apply _ _ _ _ _ (by omega), if_neg (by omega)]

/-- **The last chunk**: what is left ends in the sector at hand, and the read with it. -/
theorem ReadState.last {I : FsWorld → Prop} (h : ReadState v l file p buffer f o n cb cctx k w)
    (hI : ReadFrame file buffer n I) (hn : n < 2 ^ 31) (hkn : k < n ∨ n = 0 ∧ k = 0)
    (hk : k = 0 ∨ (o + k) % 512 = 0) (hlast : (o + k) % 512 + (n - k) ≤ 512) (hIw : I w) :
    ∃ w₁, fsReadStep v.toFatDriver (v.disk (fileLba v.toFatDriver (w.file file))) p 0 w =
        (w₁, .call (cb, cctx) 0) ∧
      ReadDone v l file buffer f o n cb cctx w₁ (cb, cctx) 0 ∧ I w₁ := by
  have hrem : (BitVec.ofNat 32 (n - k)).toNat = n - k := by
    rw [BitVec.toNat_ofNat]
    omega
  have hstart : lastChunk o n = o + k := by
    rw [lastChunk]
    split <;> omega
  refine ⟨_, fsReadStep_last h.position h.ctx (by rw [seekTo_currentByte, hrem]; exact hlast),
    ⟨rfl, rfl, ?_, fun i hi => ?_⟩, ?_⟩
  · refine (setFile_file ..).trans ?_
    rw [File.afterRead, hstart, show o + n - (o + k) = n - k by omega, BitVec.ofNat_add]
    rfl
  · have hcopy := h.copy (m := n - k) (by omega) hn hlast i (by omega)
    rw [← hrem] at hcopy
    exact hcopy
  · refine hI.readCtx _ _ _ (hI.file _ _ (hI.mem _ _ (fun a ha => ?_) hIw))
    rw [hrem]
    exact copySector_outside (by omega) hn _ a ha

/-- **Any other chunk**: the rest of the sector, and a seek to the next. -/
theorem ReadState.more {I : FsWorld → Prop} (h : ReadState v l file p buffer f o n cb cctx k w)
    (hI : ReadFrame file buffer n I) (hn : n < 2 ^ 31)
    (hmore : 512 < (o + k) % 512 + (n - k)) (hIw : I w) :
    ∃ w₁, fsReadStep v.toFatDriver (v.disk (fileLba v.toFatDriver (w.file file))) p 0 w =
        fsSeekSubmit v.toFatDriver file (BitVec.ofNat 32 (o + k + (512 - (o + k) % 512))) .fsReadStep p
          w₁ ∧
      w₁.file file = f.seekTo v l (o + k) ∧
      ReadSeeking v l file p buffer o n cb cctx (k + (512 - (o + k) % 512)) w₁ ∧ I w₁ := by
  have hbyte := @seekTo_currentByte v l f (o + k)
  have hrem : (BitVec.ofNat 32 (n - k)).toNat = n - k := by
    rw [BitVec.toNat_ofNat]
    omega
  have hstep := @fsReadStep_more v.toFatDriver (v.disk (fileLba v.toFatDriver (w.file file))) p file
    _ _ cb cctx w _ h.position h.ctx (by rw [hbyte]; omega) (by omega) (by rw [hbyte, hrem]; omega)
  -- the numbers as words
  have hchunk : (512 : Word) - (f.seekTo v l (o + k)).currentByte =
      BitVec.ofNat 32 (512 - (o + k) % 512) := by
    refine BitVec.eq_of_toNat_eq ?_
    rw [BitVec.toNat_sub, toNat_512, hbyte, BitVec.toNat_ofNat]
    omega
  have hleft : BitVec.ofNat 32 (n - k) - BitVec.ofNat 32 (512 - (o + k) % 512) =
      BitVec.ofNat 32 (n - (k + (512 - (o + k) % 512))) := by
    refine BitVec.eq_of_toNat_eq ?_
    simp only [BitVec.toNat_sub, BitVec.toNat_ofNat]
    omega
  have hbuf : buffer + BitVec.ofNat 32 k + BitVec.ofNat 32 (512 - (o + k) % 512) =
      buffer + BitVec.ofNat 32 (k + (512 - (o + k) % 512)) := by
    rw [BitVec.ofNat_add, BitVec.add_assoc]
  have hcopy := h.copy (m := 512 - (o + k) % 512) (by omega) hn (by omega)
  rw [hchunk, hleft, hbuf, hbyte] at hstep
  refine ⟨_, hstep.trans (fsSeekWhence_eq ?_), h.position, ⟨setReadCtx_readCtx .., hcopy⟩, ?_⟩
  · change some ((w.file file).fileOffset + _) = _
    rw [h.position, BitVec.ofNat_add (o + k)]
    rfl
  · exact hI.readCtx _ _ _ (hI.mem w _ (copySector_outside (by omega) hn w.mem) hIw)

/-- A seek on behalf of the read leaves its context and its buffer alone. -/
theorem ReadFrame.seeking {I : FsWorld → Prop} (hI : ReadFrame file buffer n I) :
    SeekFrame file fun w => ReadSeeking v l file p buffer o n cb cctx k w ∧ I w :=
  ⟨fun _ h => ⟨⟨h.1.ctx, h.1.copied⟩, hI.kmalloc _ h.2⟩,
    fun _ _ _ h => ⟨⟨h.1.ctx, h.1.copied⟩, hI.seekCtx _ _ _ h.2⟩,
    fun _ _ h => ⟨⟨h.1.ctx, h.1.copied⟩, hI.file _ _ h.2⟩⟩

/-- And so do the others. -/
theorem ReadSeeking.rely {c : FsClosure} (h : ReadSeeking v l file p buffer o n cb cctx k w)
    (hk : k ≤ n) (hR : ReadRely file p buffer n c w w') :
    ReadSeeking v l file p buffer o n cb cctx k w' := by
  obtain ⟨-, hctx, -, hmem⟩ := hR
  refine ⟨hctx.trans h.ctx, fun i hi => ?_⟩
  rw [hmem i (by omega)]
  exact h.copied i hi

/-- **A read completes.**  With `k` bytes delivered and the position at a sector boundary if any
are, under whatever interference: the read gets to its callback with status zero and all of its
buffer right. -/
theorem ensures_read_from {R : FsClosure → FsWorld → FsWorld → Prop} {I : FsWorld → Prop}
    (hR : ∀ c w w', R c w w' → ReadRely file p buffer n c w w' ∧ (I w → I w'))
    (hI : ReadFrame file buffer n I) (hfile : FileOn v l f) (hsize : o + n ≤ f.fileSize.toNat)
    (hn : n < 2 ^ 31) (hkn : k < n ∨ n = 0 ∧ k = 0) (hk : k = 0 ∨ (o + k) % 512 = 0) {rx : Sector}
    (hIw : I w) (h : ReadState v l file p buffer f o n cb cctx k w) :
    Ensures (fsCode v.toFatDriver) v.disk R
      (fun w k status => ReadDone v l file buffer f o n cb cctx w k status ∧ I w) rx w
      (.post (fileLba v.toFatDriver (w.file file)) (.fsReadStep, p)) := by
  -- by induction on the number of bytes to go
  induction hm : n - k using Nat.strong_induction_on generalizing k rx w with
  | _ m ih =>
    refine .post fun w' hw' => ?_
    obtain ⟨hrely, hIw'⟩ := hR _ w w' hw'
    have h' := h.rely (by omega) hrely
    have hlba : fileLba v.toFatDriver (w.file file) = fileLba v.toFatDriver (w'.file file) := by
      rw [h.position, h'.position]
    rw [hlba]
    by_cases hlast : (o + k) % 512 + (n - k) ≤ 512
    · obtain ⟨w₁, hstep, hdone, hI₁⟩ := h'.last hI hn hkn hk hlast (hIw' hIw)
      have hcode : fsCode v.toFatDriver (v.disk (fileLba v.toFatDriver (w'.file file)))
          (.fsReadStep, p) 0 w' = _ := hstep
      rw [hcode]
      exact .done ⟨hdone, hI₁⟩
    · obtain ⟨w₁, hstep, hf₁, hseeking, hI₁⟩ := h'.more hI hn (by omega) (hIw' hIw)
      have hcode : fsCode v.toFatDriver (v.disk (fileLba v.toFatDriver (w'.file file)))
          (.fsReadStep, p) 0 w' = _ := hstep
      have hhead := hfile.positionAt_seekTo (show o + k < f.fileSize.toNat by omega)
      have hsize' := f.fileSize.isLt
      have hpos : 0 < 512 - (o + k) % 512 := by omega
      have hlt : k + (512 - (o + k) % 512) < n := by omega
      have hbound : (o + (k + (512 - (o + k) % 512))) % 512 = 0 := by omega
      rw [hcode]
      clear hstep hcode
      generalize 512 - (o + k) % 512 = chunk at *
      have htoNat : (BitVec.ofNat 32 (o + k + chunk) : Word).toNat = o + k + chunk := by
        rw [BitVec.toNat_ofNat]
        omega
      refine ensures_seek (o := o + k) hI.seeking (hf₁ ▸ ⟨hfile.chain, hfile.size⟩)
        (hf₁ ▸ hhead.offset) (hf₁ ▸ hhead.cluster) ?_ ?_ (fun q w₂ w₃ hw => ?_) ⟨hseeking, hI₁⟩
        fun rx₂ w₂ h₂ hf₂ => ?_
      · rw [htoNat, hf₁]
        exact Nat.lt_of_lt_of_le (by omega) hsize
      · rintro ⟨h0, hne⟩
        have hle := Nat.div_le_div_right (c := v.bytesPerCluster) (Nat.le_add_right (o + k) chunk)
        rw [htoNat] at h0
        exact hne (Nat.le_zero.1 (h0 ▸ hle))
      · obtain ⟨hrely', hI'⟩ := hR _ w₂ w₃ hw
        exact ⟨hrely'.1, hrely'.2.2.1 rfl, fun h => ⟨h.1.rely hlt.le hrely', hI' h.2⟩⟩
      · refine .call ?_
        have hload : fsCode v.toFatDriver rx₂ (.fsReadStep, p) 0 w₂ = _ := fsReadStep_load h₂.1.ctx
        rw [hload]
        refine ih (n - (k + chunk)) (by omega) (Or.inl hlt) (Or.inr hbound)
          (hI.readCtx _ _ _ h₂.2) ⟨?_, setReadCtx_readCtx .., h₂.1.copied⟩ rfl
        rw [htoNat, hf₁] at hf₂
        exact hf₂.trans (by rw [Nat.add_assoc]; rfl)

/-- **A read completes**, from its submission. -/
theorem ensures_read {R : FsClosure → FsWorld → FsWorld → Prop} {I : FsWorld → Prop} {bytes : Word}
    (hR : ∀ c w₁ w₂, R c w₁ w₂ →
      ReadRely file w.kmalloc.1 buffer bytes.toNat c w₁ w₂ ∧ (I w₁ → I w₂))
    (hI : ReadFrame file buffer bytes.toNat I) (hfile : FileOn v l (w.file file))
    (hpos : PositionAt v l (w.file file) o) (hsize : o + bytes.toNat ≤ (w.file file).fileSize.toNat)
    (hbytes : bytes.toNat < 2 ^ 31) (hIw : I w) (rx : Sector) :
    Ensures (fsCode v.toFatDriver) v.disk R (fun w' k status =>
        ReadDone v l file buffer (w.file file) o bytes.toNat cb cctx w' k status ∧ I w') rx
      (fsReadSubmit v.toFatDriver file buffer bytes cb cctx w).1
      (fsReadSubmit v.toFatDriver file buffer bytes cb cctx w).2 := by
  rw [fsReadSubmit_eq]
  refine ensures_read_from hR hI hfile hsize hbytes ?_ (Or.inl rfl)
    (hI.readCtx _ _ _ (hI.kmalloc _ hIw)) ⟨hpos.eq_seekTo, ?_, nofun⟩
  · exact (Nat.eq_zero_or_pos bytes.toNat).elim (fun h => Or.inr ⟨h, rfl⟩) Or.inl
  · simp

end Read

/-- A closure of a caller outside the file system. -/
def IsClient (k : FsClosure) : Prop := k.1 = .client

instance : DecidablePred IsClient := fun k => inferInstanceAs (Decidable (k.1 = .client))

theorem IsClient.isFinal {d : FatDriver} {k : FsClosure} (h : IsClient k) :
    IsFinal (fsCode d) k := by
  intro rx status w
  rw [fsCode, h]

theorem readFrame_true (file buffer : Ptr) (n : Nat) : ReadFrame file buffer n fun _ => True :=
  ⟨⟨fun _ => id, fun _ _ _ => id, fun _ _ => id⟩, fun _ _ _ => id, fun _ _ _ => id⟩

theorem readRely_refl (file p buffer : Ptr) (n : Nat) (k : FsClosure) (w : FsWorld) :
    ReadRely file p buffer n k w w := ⟨rfl, rfl, fun _ => rfl, fun _ _ => rfl⟩

theorem readRely_trans (file p buffer : Ptr) (n : Nat) (k : FsClosure) (w w' w'' : FsWorld)
    (h : ReadRely file p buffer n k w w') (h' : ReadRely file p buffer n k w' w'') :
    ReadRely file p buffer n k w w'' :=
  ⟨h'.1.trans h.1, h'.2.1.trans h.2.1, fun hk => (h'.2.2.1 hk).trans (h.2.2.1 hk),
    fun i hi => (h'.2.2.2 i hi).trans (h.2.2.2 i hi)⟩

/-- **A read is correct**, whatever else goes through the scheduler.  For every volume and every
file on it whose position fields agree, and every number of bytes that are left in the file: along
every fair run of the scheduler, with any requests of others in between and the others leaving this
read's file, contexts and buffer alone, the read submitted at time `t` calls back with status zero,
and the buffer then holds the bytes of the file from its position on. -/
theorem fsRead_delivers (v : Volume) (l : List Word) (file buffer : Ptr) (bytes : Word)
    (cctx : Ptr) (w : FsWorld) (o : Nat) (hfile : FileOn v l (w.file file))
    (hpos : PositionAt v l (w.file file) o) (hbytes : 0 ≤ bytes.toInt)
    (hsize : o + bytes.toNat ≤ (w.file file).fileSize.toNat)
    (ρ : ClientRun v.disk (fsCode v.toFatDriver) IsClient
      (ReadRely file w.kmalloc.1 buffer bytes.toNat)) (hfair : ρ.Fair) (t : Nat)
    (hpc : ρ.pc t = .ofAction (fsReadSubmit v.toFatDriver file buffer bytes .client cctx w).2)
    (hworld : ρ.world t = (fsReadSubmit v.toFatDriver file buffer bytes .client cctx w).1) :
    ∃ u, t ≤ u ∧ ρ.pc u = .finished (.client, cctx) 0 ∧
      ∀ i < bytes.toNat, (ρ.world u).mem (buffer + BitVec.ofNat 32 i) = v.fileByte l (o + i) := by
  have hens := @ensures_read v l file buffer o .client cctx w
    (ReadRely file w.kmalloc.1 buffer bytes.toNat) (fun _ => True) bytes (fun _ _ _ h => ⟨h, id⟩)
    (readFrame_true _ _ _) hfile hpos hsize (toNat_lt_of_toInt_nonneg hbytes) trivial fun _ => 0
  rw [← hworld] at hens
  obtain ⟨u, k, status, htu, hfin, hdone⟩ := ClientRun.eventually_finished hfair
    (readRely_refl _ _ _ _) (readRely_trans _ _ _ _) (fun k hk => hk.isFinal)
    (fun w k status h => by rw [IsClient, h.1.callback]) hpc hens
  rw [hdone.1.callback, hdone.1.status] at hfin
  exact ⟨u, htu, hfin, hdone.1.copied⟩

/-! ### Across a cluster boundary

Four bytes are read from position 510 of the two-cluster file, while the card is busy with somebody
else's request. -/

/-- The card is busy with the other request. -/
def busyStart : IoState FsCallback Sector :=
  ioPost 0x3000 7 .client 0x40 (.init ⟨0, 0, fun _ => 0⟩ (fun _ => ⟨0, .client, 0, 0⟩) none)

/-- The events: the other request is answered first, then the sector at position 510, the
allocation table, and the sector at position 512. -/
def acrossScript : List (IoEvent FsCallback) :=
  [.submit 0x2000 10 .fsReadStep 0x1000, .irq, .pump, .test, .ret, .irq, .test,
    .submit 0x2010 1 .fsSeekStep 0x1100, .ret, .irq, .test,
    .submit 0x2020 11 .fsReadStep 0x1000, .ret, .irq, .test, .ret, .test]

theorem across_isScript : IsScript twoClusterDisk acrossScript busyStart := by
  refine ⟨?_, ?_, ?_, ?_, ?_, ?_⟩ <;> decide

theorem busyStart_reach : IoReach twoClusterDisk busyStart :=
  .step (e := .submit 0x3000 7 .client 0x40) (.init _ _ _) rfl

/-- The world with the read submitted. -/
def acrossSubmitted : FsWorld :=
  (fsReadSubmit smallDriver 0x100 0x8000 4 .client 0x50 (twoClusterWorld 510)).1

/-- After its first sector, with a seek to the second begun. -/
def acrossFirst : FsWorld :=
  (fsCode smallDriver (twoClusterDisk 10) (.fsReadStep, 0x1000) 0 acrossSubmitted).1

/-- After the seek. -/
def acrossSought : FsWorld :=
  (fsCode smallDriver (twoClusterDisk 1) (.fsSeekStep, 0x1100) 0 acrossFirst).1

/-- With its second sector asked for. -/
def acrossLoading : FsWorld :=
  (fsCode smallDriver (twoClusterDisk 1) (.fsReadStep, 0x1000) 0 acrossSought).1

/-- After its second sector. -/
def acrossSecond : FsWorld :=
  (fsCode smallDriver (twoClusterDisk 11) (.fsReadStep, 0x1000) 0 acrossLoading).1

/-- The read in the run: where it is, and the world, at each time. -/
def acrossClient (t : Nat) : FsWorld × ClientPc FsCallback :=
  if t = 0 then (acrossSubmitted, .posting 10 (.fsReadStep, 0x1000))
  else if t ≤ 6 then (acrossSubmitted, .waiting 1)
  else if t = 7 then (acrossFirst, .posting 1 (.fsSeekStep, 0x1100))
  else if t ≤ 10 then (acrossFirst, .waiting 2)
  else if t = 11 then (acrossLoading, .posting 11 (.fsReadStep, 0x1000))
  else if t ≤ 14 then (acrossLoading, .waiting 3)
  else (acrossSecond, .finished (.client, 0x50) 0)

/-- An event that is not the program's. -/
theorem across_other {t i : Nat} {b : Word} {k : FsClosure}
    {R : FsClosure → FsWorld → FsWorld → Prop} {w : FsWorld} (hR : R k w w)
    (hcalls : (scriptState twoClusterDisk acrossScript busyStart (t + 1)).log.called.length ≤ i)
    (hreq : (scriptState twoClusterDisk acrossScript busyStart t).log.submitted[i]? = some (b, k)) :
    ClientStep twoClusterDisk (fsCode smallDriver) IsClient R (scriptEvent acrossScript t)
      (scriptState twoClusterDisk acrossScript busyStart t) w (.waiting i)
      (scriptState twoClusterDisk acrossScript busyStart (t + 1)) w (.waiting i) :=
  .other (across_isScript.step_some t) hcalls hreq hR

/-- The event that invokes it. -/
theorem across_enter {t i : Nat} {b : Word} {k : FsClosure} {a : FsAction}
    {R : FsClosure → FsWorld → FsWorld → Prop} {w w' : FsWorld}
    (hcalls : (scriptState twoClusterDisk acrossScript busyStart (t + 1)).log.called.length = i + 1)
    (hreq : (scriptState twoClusterDisk acrossScript busyStart (t + 1)).log.submitted[i]? =
      some (b, k))
    (hrun : Settles (fsCode smallDriver) IsClient (twoClusterDisk b) w (.call k 0) w' a) :
    ClientStep twoClusterDisk (fsCode smallDriver) IsClient R (scriptEvent acrossScript t)
      (scriptState twoClusterDisk acrossScript busyStart t) w (.waiting i)
      (scriptState twoClusterDisk acrossScript busyStart (t + 1)) w' (.ofAction a) :=
  .enter (across_isScript.step_some t) hcalls
    (((across_isScript.run busyStart_reach).inv (t + 1)).called_getElem? hreq (by
      rw [show (across_isScript.run busyStart_reach).state (t + 1) =
        scriptState twoClusterDisk acrossScript busyStart (t + 1) from rfl, hcalls]
      exact Nat.lt_succ_self i)) rfl hrun

/-- The event that submits its request. -/
theorem across_submit (req : Ptr) {t i : Nat} {b : Word} {k : FsClosure}
    {R : FsClosure → FsWorld → FsWorld → Prop} {w : FsWorld}
    (he : scriptEvent acrossScript t = .submit req b k.1 k.2)
    (hi : (scriptState twoClusterDisk acrossScript busyStart t).log.submitted.length = i) :
    ClientStep twoClusterDisk (fsCode smallDriver) IsClient R (scriptEvent acrossScript t)
      (scriptState twoClusterDisk acrossScript busyStart t) w (.posting b k)
      (scriptState twoClusterDisk acrossScript busyStart (t + 1)) w (.waiting i) :=
  hi ▸ .submit he (across_isScript.step_some t)

/-- The first sector. -/
theorem across_first : Settles (fsCode smallDriver) IsClient (twoClusterDisk 10) acrossSubmitted
    (.call (.fsReadStep, 0x1000) 0) acrossFirst (.post 1 (.fsSeekStep, 0x1100)) := by
  have hpost : (fsCode smallDriver (twoClusterDisk 10) (.fsReadStep, 0x1000) 0 acrossSubmitted).2 =
      .post 1 (.fsSeekStep, 0x1100) := by decide +kernel
  refine .of_post ?_ hpost
  decide

/-- The allocation table, and the read again. -/
theorem across_table : Settles (fsCode smallDriver) IsClient (twoClusterDisk 1) acrossFirst
    (.call (.fsSeekStep, 0x1100) 0) acrossLoading (.post 11 (.fsReadStep, 0x1000)) := by
  have hcall : (fsCode smallDriver (twoClusterDisk 1) (.fsSeekStep, 0x1100) 0 acrossFirst).2 =
      .call (.fsReadStep, 0x1000) 0 := by decide +kernel
  have hpost : (fsCode smallDriver (twoClusterDisk 1) (.fsReadStep, 0x1000) 0 acrossSought).2 =
      .post 11 (.fsReadStep, 0x1000) := by decide +kernel
  refine .call (by decide) ?_
  rw [hcall]
  refine .of_post ?_ hpost
  decide

/-- The second sector. -/
theorem across_second : Settles (fsCode smallDriver) IsClient (twoClusterDisk 11) acrossLoading
    (.call (.fsReadStep, 0x1000) 0) acrossSecond (.call (.client, 0x50) 0) := by
  have hcall : (fsCode smallDriver (twoClusterDisk 11) (.fsReadStep, 0x1000) 0 acrossLoading).2 =
      .call (.client, 0x50) 0 := by decide +kernel
  refine .of_out ?_ rfl hcall
  decide

theorem across_client {R : FsClosure → FsWorld → FsWorld → Prop} (hR : ∀ k w, R k w w) (t : Nat) :
    ClientStep twoClusterDisk (fsCode smallDriver) IsClient R (scriptEvent acrossScript t)
      (scriptState twoClusterDisk acrossScript busyStart t) (acrossClient t).1 (acrossClient t).2
      (scriptState twoClusterDisk acrossScript busyStart (t + 1)) (acrossClient (t + 1)).1
      (acrossClient (t + 1)).2 := by
  match t with
  | 0 => exact across_submit 0x2000 (i := 1) rfl rfl
  | 1 | 2 | 3 | 4 | 5 =>
    exact across_other (hR (.fsReadStep, 0x1000) _) (by decide) (b := 10) (by decide)
  | 6 => exact across_enter (by decide) (by decide) across_first
  | 7 => exact across_submit 0x2010 (i := 2) rfl rfl
  | 8 | 9 => exact across_other (hR (.fsSeekStep, 0x1100) _) (by decide) (b := 1) (by decide)
  | 10 => exact across_enter (by decide) (by decide) across_table
  | 11 => exact across_submit 0x2020 (i := 3) rfl rfl
  | 12 | 13 => exact across_other (hR (.fsReadStep, 0x1000) _) (by decide) (b := 11) (by decide)
  | 14 => exact across_enter (by decide) (by decide) across_second
  | t + 15 => exact .ended (across_isScript.step_some (t + 15)) (Or.inl ⟨_, _, rfl⟩)

/-- The run. -/
def acrossRun : ClientRun twoClusterDisk (fsCode smallDriver) IsClient
    (ReadRely 0x100 0x1000 0x8000 4) where
  toIoRun := across_isScript.run busyStart_reach
  world t := (acrossClient t).1
  pc t := (acrossClient t).2
  client t := across_client (readRely_refl _ _ _ _) t

/-- The read gets its four bytes. -/
theorem fsRead_delivers_across :
    ∃ u, acrossRun.pc u = .finished (.client, 0x50) 0 ∧
      ∀ i < 4, (acrossRun.world u).mem (0x8000 + BitVec.ofNat 32 i) =
        (smallVolume twoClusterDisk).fileByte [2, 3] (510 + i) := by
  obtain ⟨u, -, hpc, hmem⟩ := fsRead_delivers (smallVolume twoClusterDisk) [2, 3] 0x100 0x8000 4 0x50
    (twoClusterWorld 510) 510 (twoCluster_fileOn 510) (twoCluster_positionAt (by decide)) (by decide)
    (by decide) acrossRun (across_isScript.fair busyStart_reach) 0 rfl rfl
  exact ⟨u, hpc, hmem⟩

/-! ## Reading on

Where a read leaves the file, a second read should find the bytes that follow.  But what the first
takes from its last sector is added to `current_byte` alone: the offset stays at the beginning of
the last chunk, and the byte may even stand past the end of the sector. -/

section ReadOn

variable {v : Volume} {l : List Word} {file buffer cctx : Ptr} {w : FsWorld} {o : Nat}

/-- The last chunk of a read begins before the end of the read. -/
theorem lastChunk_lt {o n : Nat} (hn : 0 < n) : lastChunk o n < o + n := by
  rw [lastChunk, if_neg (by omega)]
  omega

/-- **The offset a read leaves**, whenever it completes, is that of its last chunk. -/
theorem fsRead_fileOffset {bytes : Word} {rx rx' : Sector} {w' : FsWorld}
    (hfile : FileOn v l (w.file file)) (hpos : PositionAt v l (w.file file) o)
    (hsize : o + bytes.toNat ≤ (w.file file).fileSize.toNat) (hbytes : 0 ≤ bytes.toInt)
    (h : Reaches (fsCode v.toFatDriver) v.disk
      ⟨rx, (fsReadSubmit v.toFatDriver file buffer bytes .client cctx w).1,
        (fsReadSubmit v.toFatDriver file buffer bytes .client cctx w).2⟩
      ⟨rx', w', .call (.client, cctx) 0⟩) :
    (w'.file file).fileOffset = BitVec.ofNat 32 (lastChunk o bytes.toNat) := by
  have hens := @ensures_read v l file buffer o .client cctx w (fun _ => Eq) (fun _ => True) bytes
    (fun _ _ _ hw => hw ▸ ⟨readRely_refl .., id⟩) (readFrame_true _ _ _) hfile hpos hsize
    (toNat_lt_of_toInt_nonneg hbytes) trivial rx
  obtain ⟨rx₁, w₁, k, status, hreach, hdone, -⟩ := hens.reaches fun _ _ => rfl
  rw [hdone.callback] at hreach
  obtain ⟨rfl, -, -⟩ := Reaches.final_unique (isFinal_client _ _) (isFinal_client _ _) hreach h
  rw [hdone.position]
  rfl

/-- A read of `m` bytes, on its own, completes and leaves the file at the position after them, and
a read of `n` more then completes with what a single read of both has after the first `m`. -/
def ReadsContiguous (v : Volume) (l : List Word) (file buffer buffer' : Ptr) (m n : Word)
    (cctx : Ptr) (rx : Sector) (w : FsWorld) (o : Nat) : Prop :=
  ∃ rx₁ w₁ rx₂ w₂ rx₃ w₃,
    Reaches (fsCode v.toFatDriver) v.disk
      ⟨rx, (fsReadSubmit v.toFatDriver file buffer m .client cctx w).1,
        (fsReadSubmit v.toFatDriver file buffer m .client cctx w).2⟩
      ⟨rx₁, w₁, .call (.client, cctx) 0⟩ ∧
    PositionAt v l (w₁.file file) (o + m.toNat) ∧
    Reaches (fsCode v.toFatDriver) v.disk
      ⟨rx₁, (fsReadSubmit v.toFatDriver file buffer' n .client cctx w₁).1,
        (fsReadSubmit v.toFatDriver file buffer' n .client cctx w₁).2⟩
      ⟨rx₂, w₂, .call (.client, cctx) 0⟩ ∧
    Reaches (fsCode v.toFatDriver) v.disk
      ⟨rx, (fsReadSubmit v.toFatDriver file buffer (m + n) .client cctx w).1,
        (fsReadSubmit v.toFatDriver file buffer (m + n) .client cctx w).2⟩
      ⟨rx₃, w₃, .call (.client, cctx) 0⟩ ∧
    ∀ i < n.toNat, w₂.mem (buffer' + BitVec.ofNat 32 i) = w₃.mem (buffer + m + BitVec.ofNat 32 i)

end ReadOn

/-- **Two reads are never contiguous.**  For every volume and file, every position whose fields
agree, and all numbers of bytes that are left: the offset lags behind, wherever the first read
starts and ends, so that it does not leave the file at the byte after its last. -/
theorem fsRead_never_contiguous (v : Volume) (l : List Word) (file buffer buffer' : Ptr)
    (m n : Word) (cctx : Ptr) (rx : Sector) (w : FsWorld) (o : Nat)
    (hfile : FileOn v l (w.file file)) (hpos : PositionAt v l (w.file file) o) (hm : 1 ≤ m.toInt)
    (hsize : o + m.toNat + n.toNat ≤ (w.file file).fileSize.toNat) :
    ¬ ReadsContiguous v l file buffer buffer' m n cctx rx w o := by
  rintro ⟨rx₁, w₁, -, -, -, -, hreach, hpos₁, -⟩
  have hoff := fsRead_fileOffset hfile hpos (by omega) (by omega) hreach
  have hpos' : 0 < m.toNat := by
    rw [BitVec.toInt_eq_toNat_cond] at hm
    split at hm <;> omega
  have hlt := lastChunk_lt (o := o) hpos'
  have hbound := (w.file file).fileSize.isLt
  have htoNat := hpos₁.offset
  rw [hoff, BitVec.toNat_ofNat, Nat.mod_eq_of_lt (by omega)] at htoNat
  omega

/-- Three bytes from position 5, and two more. -/
theorem fsRead_never_contiguous_small :
    ¬ ReadsContiguous (smallVolume twoClusterDisk) [2, 3] 0x100 0x8000 0x9000 3 2 0 (fun _ => 0)
      (twoClusterWorld 5) 5 :=
  fsRead_never_contiguous (smallVolume twoClusterDisk) [2, 3] 0x100 0x8000 0x9000 3 2 0
    (fun _ => 0) (twoClusterWorld 5) 5 (twoCluster_fileOn 5) (twoCluster_positionAt (by decide))
    (by decide) (by decide)

/-- Three bytes from position 508: the read completes with the offset where it was. -/
theorem fsRead_offset_lags :
    FileOn (smallVolume twoClusterDisk) [2, 3] ((twoClusterWorld 508).file 0x100) ∧
      PositionAt (smallVolume twoClusterDisk) [2, 3] ((twoClusterWorld 508).file 0x100) 508 ∧
      508 + 3 + 2 ≤ ((twoClusterWorld 508).file 0x100).fileSize.toNat ∧
      ¬ ReadsContiguous (smallVolume twoClusterDisk) [2, 3] 0x100 0x8000 0x9000 3 2 0 (fun _ => 0)
        (twoClusterWorld 508) 508 := by
  have hfile := twoCluster_fileOn 508
  have hpos := twoCluster_positionAt (o := 508) (by decide)
  refine ⟨hfile, hpos, by decide, ?_⟩
  rintro ⟨rx₁, w₁, -, -, -, -, hreach, hpos₁, -⟩
  have hoff := fsRead_fileOffset hfile hpos (by decide) (by decide) hreach
  have htoNat := hpos₁.offset
  rw [hoff] at htoNat
  exact absurd htoNat (by decide)

end RiscyOS
