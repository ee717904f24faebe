import Mathlib.Data.List.Count
import RiscyOS.Fs.SeekBounds

/-!
# Reading past the end

A read does not look at the size of its file; the seeks between its sectors do.  So it is stopped at the
first sector that begins past the end, or at the first cluster that is not there, and if it comes to
neither it succeeds, however far it was to go: `fsRead_past_iff`.

The sectors that a read enters after its first one are `sectorsEntered`, and the induction over them
carries the position without wrapping it; the machine's offset is that, modulo a word.  Position zero is
come to again after the last word, and there the read stays in the cluster it was in.
-/

set_option autoImplicit false

namespace RiscyOS

open Memory Callback

/-! ## What a read comes to -/

/-- Where the sectors begin that a read of `n` bytes from `o` enters after its first. -/
def sectorsEntered (o n : Nat) : List Nat :=
  List.range' (512 * (o / 512 + 1)) ((o + n - 1) / 512 - o / 512) 512

section Blocked

variable (v : Volume)

/-- A position at which a cluster begins, not the first. -/
def Volume.EntersCluster (t : Nat) : Prop := t % 2 ^ 32 ≠ 0 ∧ v.bytesPerCluster ∣ t % 2 ^ 32

instance : DecidablePred v.EntersCluster := fun _ => inferInstanceAs (Decidable (_ ∧ _))

/-- How many clusters a read of `n` bytes from `o` goes on to. -/
def Volume.clustersEntered (o n : Nat) : Nat :=
  (sectorsEntered o n).countP fun t => v.EntersCluster t

/-- **A read is stopped**: a sector it enters begins past the end, or there are not as many clusters
after its first as it goes on to. -/
def Volume.ReadStopped (size : Nat) (c : Word) (o n : Nat) : Prop :=
  (∃ t ∈ sectorsEntered o n, size < t % 2 ^ 32) ∨
    ∃ j < v.clustersEntered o n, EndOfChain (v.fat^[j + 1] c)

variable {v} {size o n : Nat} {c : Word}

theorem sectorsEntered_nil (h : o % 512 + n ≤ 512) : sectorsEntered o n = [] := by
  rw [sectorsEntered, show (o + n - 1) / 512 - o / 512 = 0 by omega]
  rfl

theorem sectorsEntered_cons (h : 512 < o % 512 + n) :
    sectorsEntered o n = (o + (512 - o % 512)) ::
      sectorsEntered (o + (512 - o % 512)) (n - (512 - o % 512)) := by
  have hlen : (o + n - 1) / 512 - o / 512 =
      (o + (512 - o % 512) + (n - (512 - o % 512)) - 1) / 512 - (o + (512 - o % 512)) / 512 + 1 := by
    omega
  have hnext : 512 * (o / 512 + 1) + 512 = 512 * ((o + (512 - o % 512)) / 512 + 1) := by omega
  rw [sectorsEntered, hlen, List.range'_succ, hnext, sectorsEntered]
  congr 1
  omega

/-- A read that stays in its sector is not stopped. -/
theorem not_readStopped (h : o % 512 + n ≤ 512) : ¬ v.ReadStopped size c o n := by
  rw [Volume.ReadStopped, Volume.clustersEntered, sectorsEntered_nil h]
  rintro (⟨t, ht, -⟩ | ⟨j, hj, -⟩)
  · exact absurd ht List.not_mem_nil
  · exact absurd hj (Nat.not_lt_zero j)

/-- **One sector on**: a read is stopped there, or after. -/
theorem readStopped_cons (h : 512 < o % 512 + n) :
    v.ReadStopped size c o n ↔ size < (o + (512 - o % 512)) % 2 ^ 32 ∨
      v.EntersCluster (o + (512 - o % 512)) ∧ EndOfChain (v.fat c) ∨
      v.ReadStopped size (if v.EntersCluster (o + (512 - o % 512)) then v.fat c else c)
        (o + (512 - o % 512)) (n - (512 - o % 512)) := by
  rw [Volume.ReadStopped, Volume.ReadStopped, Volume.clustersEntered, Volume.clustersEntered,
    sectorsEntered_cons h, List.exists_mem_cons_iff, List.countP_cons]
  generalize o + (512 - o % 512) = t
  generalize sectorsEntered t _ = ts
  by_cases henters : v.EntersCluster t
  · simp only [henters, decide_true, if_true]
    rw [Nat.exists_lt_succ_left]
    simp only [Function.iterate_succ_apply, Function.iterate_zero_apply, true_and, or_assoc]
    exact or_congr_right or_left_comm
  · simp only [henters, decide_false, Bool.false_eq_true, if_false, Nat.add_zero, false_and, false_or,
      or_assoc]

end Blocked

/-! ## From one sector to the next -/

section Next

variable {v : Volume} {answers : Word → Sector → Int → Prop} {R : FsClosure → FsWorld → FsWorld → Prop}
  {final : FsClosure → Prop} {Q : List (Nat × Ptr) → FsWorld → FsClosure → Int → Prop}
  {I : FsWorld → Prop} {n : Nat} {os : List (Nat × Ptr)} {rx : Sector} {w : FsWorld}
  {file cctx : Ptr} {cb : FsCallback} {t : Word} {o : Nat}

/-- The next sector is in the same cluster, or it begins the next. -/
theorem nextSector_div (v : Volume) (o : Nat) :
    (o + (512 - o % 512)) / v.bytesPerCluster = o / v.bytesPerCluster +
      if v.bytesPerCluster ∣ o + (512 - o % 512) then 1 else 0 := by
  have hnext : o + (512 - o % 512) = 512 * (o / 512 + 1) := by omega
  rw [Volume.bytesPerCluster, hnext, Nat.mul_div_mul_left _ _ (by decide : 0 < 512), Nat.succ_div,
    Nat.div_div_eq_div_mul]
  congr 1
  exact if_congr (Nat.mul_dvd_mul_iff_left (by decide)).symm rfl rfl

/-- Where the machine goes from sector to sector: past the last word it begins again. -/
theorem nextSector_mod (o : Nat) :
    (o + (512 - o % 512)) % 2 ^ 32 = o % 2 ^ 32 + (512 - o % 2 ^ 32 % 512) ∨
      (o + (512 - o % 512)) % 2 ^ 32 = 0 := by omega

/-- So it stays in its cluster or comes to the next, unless it begins again. -/
theorem nextSector_wrapped_div (v : Volume) {offset : Word} (hoff : offset.toNat = o % 2 ^ 32)
    (ht : t.toNat = (o + (512 - o % 512)) % 2 ^ 32) (hne : t.toNat ≠ 0) :
    t.toNat / v.bytesPerCluster = offset.toNat / v.bytesPerCluster +
      if v.bytesPerCluster ∣ t.toNat then 1 else 0 := by
  rw [ht, hoff, (nextSector_mod o).resolve_right (ht ▸ hne)]
  exact nextSector_div v _

/-- **The seek to the next sector** looks at the size, and at one entry of the table if that begins a
cluster. -/
theorem completes_seekNext (hdisk : ∀ b rx status, answers b rx status → rx = v.disk b)
    (hI : SeekFrame file I) (hR : ∀ p w w', R (.fsSeekStep, p) w w' →
      w'.file file = w.file file ∧ w'.seekCtx p = w.seekCtx p ∧ (I w → I w'))
    (hoff : (w.file file).fileOffset.toNat = o % 2 ^ 32)
    (ht : t.toNat = (o + (512 - o % 512)) % 2 ^ 32) (hIw : I w)
    (hfail : ((w.file file).fileSize.toNat < t.toNat ∨ v.EntersCluster (o + (512 - o % 512)) ∧
          EndOfChain (v.fat (w.file file).currentCluster) ∨
          ∃ b rx status, answers b rx status ∧ status ≠ 0) →
      ∀ rx w', I w' → Completes (fsCode v.toFatDriver) answers R final fsCopies Q n os rx w'
        (.call (cb, cctx) (-1)))
    (hdone : ¬ (w.file file).fileSize.toNat < t.toNat → ¬ (v.EntersCluster (o + (512 - o % 512)) ∧
          EndOfChain (v.fat (w.file file).currentCluster)) →
      ∀ rx w', I w' → w'.file file = { w.file file with
        currentCluster := if v.EntersCluster (o + (512 - o % 512)) then
          v.fat (w.file file).currentCluster else (w.file file).currentCluster
        currentSector := (seekDecompose v.toFatDriver t).sectorInCluster.setWidth 32
        currentByte := (seekDecompose v.toFatDriver t).byteInSector.setWidth 32
        fileOffset := t } →
      Completes (fsCode v.toFatDriver) answers R final fsCopies Q n os rx w' (.call (cb, cctx) 0)) :
    Completes (fsCode v.toFatDriver) answers R final fsCopies Q (n + 1) os rx
      (fsSeekSubmit v.toFatDriver file t cb cctx w).1
      (fsSeekSubmit v.toFatDriver file t cb cctx w).2 := by
  by_cases hsize : (w.file file).fileSize.toNat < t.toNat
  · rw [not_not.1 (mt fsSeekSubmit_begun_iff.1 (Nat.not_le.2 hsize))]
    exact (hfail (Or.inl hsize) rx w hIw).mono (Nat.le_succ n)
  have hle := Nat.le_of_not_lt hsize
  have henters : v.EntersCluster (o + (512 - o % 512)) ↔
      t.toNat ≠ 0 ∧ v.bytesPerCluster ∣ t.toNat := by rw [ht, Volume.EntersCluster]
  have hdiv := nextSector_wrapped_div v hoff ht
  by_cases hin : v.EntersCluster (o + (512 - o % 512))
  · -- one entry of the table is asked for
    obtain ⟨hne, hdvd⟩ := henters.1 hin
    have hj := hdiv hne
    rw [if_pos hdvd] at hj
    rw [fsSeekSubmit_walk hle (Or.inl ⟨by rw [hj]; exact Nat.lt_succ_self _, rfl, rfl⟩), hj,
      Nat.add_sub_cancel_left]
    refine completes_walk (k := 0) (I := I) (f := w.file file) (J := fun k c => k ≤ 1 ∧
        (k = 1 → c = (w.file file).currentCluster) ∧
        (k = 0 → c = v.fat (w.file file).currentCluster ∧ ¬ EndOfChain c))
      hI (hR _) ?_ ?_ ?_ rfl ⟨le_rfl, fun _ => rfl, nofun⟩ (hI.seekCtx _ _ _ (hI.kmalloc _ hIw)) rfl
      (setSeekCtx_seekCtx ..)
    · rintro k c rx ⟨hk, hc, -⟩ ha hgood
      obtain rfl : k = 0 := by omega
      rw [hdisk _ _ _ ha, v.getNextCluster_eq, hc rfl] at hgood ⊢
      exact ⟨Nat.zero_le 1, nofun, fun _ => ⟨rfl, hgood⟩⟩
    · rintro k c rx status w' ⟨hk, hc, -⟩ ha hbad hI' -
      obtain rfl : k = 0 := by omega
      rw [hdisk _ _ _ ha, v.getNextCluster_eq, hc rfl] at hbad
      refine hfail (Or.inr ?_) rx w' hI'
      exact hbad.symm.imp (fun hend => ⟨hin, hend⟩) fun hstatus => ⟨_, _, _, ha, hstatus⟩
    · rintro c rx w' ⟨-, -, hc⟩ hI' hf
      obtain ⟨rfl, hgood⟩ := hc rfl
      refine hdone hsize (fun h => hgood h.2) rx w' hI' ?_
      rw [hf, if_pos hin]
  · have hstay : t.toNat / v.bytesPerCluster =
        (w.file file).fileOffset.toNat / v.bytesPerCluster ∨ t.toNat / v.bytesPerCluster = 0 := by
      by_cases hzero : t.toNat = 0
      · exact Or.inr (by rw [hzero, Nat.zero_div])
      · exact Or.inl (by rw [hdiv hzero, if_neg fun hdvd => hin (henters.2 ⟨hzero, hdvd⟩), Nat.add_zero])
    rw [fsSeekSubmit_stay hle hstay]
    refine (hdone hsize (fun h => hin h.1) rx _ (hI.file _ _ hIw) ?_).mono (Nat.le_succ n)
    rw [if_neg hin]
    exact setFile_file ..

end Next

/-! ## The whole read -/

section Read

variable {v : Volume} {answers : Word → Sector → Int → Prop} {R : FsClosure → FsWorld → FsWorld → Prop}
  {final : FsClosure → Prop} {G : Prop} {file p buffer cctx : Ptr} {cb : FsCallback}

/-- How a read ends that is stopped if `G`: not with status zero if it is, and otherwise so if the card
never fails. -/
def ReadEnds (answers : Word → Sector → Int → Prop) (G : Prop) (status : Int) : Prop :=
  (status = 0 → ¬ G) ∧ ((∀ b rx status, answers b rx status → status = 0) → ¬ G → status = 0)

/-- What is left of the sector at a byte. -/
theorem toNat_sectorLeft {o : Nat} {b : Word} (hb : b.toNat = o % 512) :
    ((512 : Word) - b).toNat = 512 - o % 512 := by
  rw [BitVec.toNat_sub, toNat_512, hb]
  omega

/-- **A chunk that is not the last** is followed by a seek to the next sector. -/
theorem fsReadStep_next {d : FatDriver} {rx : Sector} {w : FsWorld} {f : File} {rem dst : Word}
    (hf : w.file file = f) (hctx : w.readCtx p = ⟨file, dst, .copyContents, rem, cb, cctx⟩)
    (hbyte : f.currentByte.toNat < 512) (hrem : rem.toNat < 2 ^ 31)
    (hmore : 512 < f.currentByte.toNat + rem.toNat) :
    ∃ w₁, fsReadStep d rx p 0 w =
        fsSeekSubmit d file (f.fileOffset + (512 - f.currentByte)) .fsReadStep p w₁ ∧
      w₁.file file = f ∧ w₁.readCtx p = ⟨file, dst + (512 - f.currentByte), .loadContents,
        rem - (512 - f.currentByte), cb, cctx⟩ :=
  ⟨_, (fsReadStep_more hf hctx hbyte hrem hmore).trans
    (fsSeekWhence_eq (congrArg (fun f : File => some (f.fileOffset + _)) hf)), hf, setReadCtx_readCtx ..⟩

/-- **A read ends as it is stopped or not.**  It is at position `o`, not wrapped, of its file `f`. -/
theorem completes_readFrom (hdisk : ∀ b rx status, answers b rx status → rx = v.disk b)
    (hR : ∀ k w w', R k w w' → ReadRely file p buffer 0 k w w') (hfinal : final (cb, cctx))
    (hfresh : ¬ final (.fsReadStep, p)) {o : Nat} {rem dst : Word} {os : List (Nat × Ptr)}
    {rx : Sector} {lba : Word} {w : FsWorld} {f : File} (hf : w.file file = f)
    (hoff : f.fileOffset.toNat = o % 2 ^ 32) (hbyte : f.currentByte.toNat = o % 512)
    (hrem : rem.toNat < 2 ^ 31)
    (hctx : w.readCtx p = ⟨file, dst, .copyContents, rem, cb, cctx⟩)
    (hG : G ↔ v.ReadStopped f.fileSize.toNat f.currentCluster o rem.toNat) :
    Completes (fsCode v.toFatDriver) answers R final fsCopies
      (fun _ _ _ status => ReadEnds answers G status) (2 * rem.toNat + 1) os rx w
      (.post lba (.fsReadStep, p)) := by
  -- by induction on the number of bytes to go
  induction hm : rem.toNat using Nat.strong_induction_on generalizing o rem dst os rx lba w f with
  | _ m ih =>
    subst hm
    refine .post fun rx' status w' ha hw' => ?_
    obtain ⟨hf', hctx', -⟩ := hR _ w w' hw'
    replace hf' := hf'.trans hf
    replace hctx' := hctx'.trans hctx
    change Completes _ _ _ _ _ _ _ _ _ (fsReadStep _ rx' p status w').1 (fsReadStep _ rx' p status w').2
    generalize os ++ fsCopies rx' (.fsReadStep, p) status w' = os'
    by_cases hstatus : status = 0
    · subst hstatus
      by_cases hlast : f.currentByte.toNat + rem.toNat ≤ 512
      · rw [fsReadStep_last hf' hctx' hlast]
        exact .done hfinal ⟨fun _ => (not_congr hG).2 (not_readStopped (hbyte ▸ hlast)), fun _ _ => rfl⟩
      · rw [Nat.not_le] at hlast
        have hchunk := toNat_sectorLeft hbyte
        have hleft : (rem - (512 - f.currentByte)).toNat = rem.toNat - (512 - o % 512) := by
          rw [BitVec.toNat_sub, hchunk]
          omega
        have ht : (f.fileOffset + (512 - f.currentByte)).toNat = (o + (512 - o % 512)) % 2 ^ 32 := by
          rw [BitVec.toNat_add, hchunk, hoff, Nat.mod_add_mod]
        have hcons := @readStopped_cons v f.fileSize.toNat o rem.toNat f.currentCluster (hbyte ▸ hlast)
        obtain ⟨w₁, hstep, hf₁, hctx₁⟩ :=
          @fsReadStep_next file p cctx cb v.toFatDriver rx' w' f rem dst hf' hctx' (by omega) hrem hlast
        rw [hstep]
        refine Completes.mono (completes_seekNext (n := 2 * (rem - (512 - f.currentByte)).toNat + 1)
          (o := o) (I := fun w => w.readCtx p = ⟨file, dst + (512 - f.currentByte), .loadContents,
            rem - (512 - f.currentByte), cb, cctx⟩) hdisk
          ⟨fun _ => id, fun _ _ _ => id, fun _ _ => id⟩ (fun q w₂ w₃ h => ?_) (hf₁ ▸ hoff) ht hctx₁
          ?_ ?_) (by omega)
        · obtain ⟨hf, hctx, hseek, -⟩ := hR _ w₂ w₃ h
          exact ⟨hf, hseek rfl, hctx.trans⟩
        · intro hbad rx₁ w₂ hctx₂
          refine completes_readFailed hfresh hctx₂ (.done hfinal
            ⟨fun h => absurd h (by decide), fun hs hno => absurd (hG.2 (hcons.2 ?_)) hno⟩)
          rw [hf₁, ht] at hbad
          rcases hbad with hsize | hend | ⟨b, rx, status, ha, hne⟩
          · exact Or.inl hsize
          · exact Or.inr (Or.inl hend)
          · exact absurd (hs _ _ _ ha) hne
        · intro hsize hend rx₁ w₂ hctx₂ hf₂
          rw [hf₁, ht] at hsize
          rw [hf₁] at hend hf₂
          refine completes_readLoads hfresh hctx₂ (ih _ (by omega) (o := o + (512 - o % 512)) hf₂ ht ?_
            (by omega) (setReadCtx_readCtx ..) ?_ rfl)
          · dsimp only
            rw [seekDecompose_byte, ht, BitVec.toNat_ofNat]
            omega
          · rw [hG, hcons, hleft]
            exact ⟨fun h => (h.resolve_left hsize).resolve_left hend, fun h => Or.inr (Or.inr h)⟩
    · rw [fsReadStep_error hctx' hstatus]
      exact .done hfinal ⟨fun h => absurd h (by decide), fun hs => absurd (hs _ _ _ ha) hstatus⟩

/-- A read ends as it is stopped or not, from its submission. -/
theorem completes_readPast {bytes : Word} {o : Nat} {w : FsWorld} (rx : Sector)
    (hdisk : ∀ b rx status, answers b rx status → rx = v.disk b)
    (hoff : (w.file file).fileOffset.toNat = o) (hbyte : (w.file file).currentByte.toNat = o % 512)
    (hbytes : 0 ≤ bytes.toInt) (hfresh : (cb, cctx) ≠ (.fsReadStep, w.kmalloc.1)) :
    Completes (fsCode v.toFatDriver) answers (ReadRely file w.kmalloc.1 buffer 0) (· = (cb, cctx))
      fsCopies (fun _ _ _ status => ReadEnds answers
        (v.ReadStopped (w.file file).fileSize.toNat (w.file file).currentCluster o bytes.toNat) status)
      (2 * bytes.toNat + 1) [] rx (fsReadSubmit v.toFatDriver file buffer bytes cb cctx w).1
      (fsReadSubmit v.toFatDriver file buffer bytes cb cctx w).2 := by
  rw [fsReadSubmit_eq]
  exact @completes_readFrom v answers (ReadRely file w.kmalloc.1 buffer 0) (· = (cb, cctx)) _ file
    w.kmalloc.1 buffer cctx cb hdisk (fun _ _ _ => id) rfl hfresh.symm o bytes buffer [] rx _
    (w.kmalloc.2.setReadCtx _ _) (w.file file) rfl
    (hoff ▸ (Nat.mod_eq_of_lt (w.file file).fileOffset.isLt).symm) hbyte
    (toNat_lt_of_toInt_nonneg hbytes) (setReadCtx_readCtx ..) Iff.rfl

end Read

/-- **A read does not succeed**: whatever status the card answers with, and whatever the others do, it
does not call back with status zero. -/
def ReadFails (v : Volume) (file buffer : Ptr) (bytes : Word) (cb : FsCallback) (cctx : Ptr) (rx : Sector)
    (w : FsWorld) : Prop :=
  ∀ rx' w' status, Runs (fsCode v.toFatDriver) (fun b rx _ => rx = v.disk b)
      (ReadRely file w.kmalloc.1 buffer 0) (· = (cb, cctx))
      ⟨rx, (fsReadSubmit v.toFatDriver file buffer bytes cb cctx w).1,
        (fsReadSubmit v.toFatDriver file buffer bytes cb cctx w).2⟩
      ⟨rx', w', .call (cb, cctx) status⟩ → status ≠ 0

/-- **A read past the end fails if it is stopped.**  For every volume, every file with a position in it
whose offset and byte agree, and every number of bytes that goes past the end: the read does not succeed
if and only if a sector it enters begins past the end, or there are not as many clusters as it goes
on to. -/
theorem fsRead_past_iff (v : Volume) (file buffer : Ptr) (bytes : Word) (cb : FsCallback) (cctx : Ptr)
    (rx : Sector) (w : FsWorld) (o : Nat) (hoff : (w.file file).fileOffset.toNat = o)
    (hbyte : (w.file file).currentByte.toNat = o % 512) (hle : o ≤ (w.file file).fileSize.toNat)
    (hpast : ((w.file file).fileSize.toNat : Int) < o + bytes.toInt)
    (hfresh : (cb, cctx) ≠ (.fsReadStep, w.kmalloc.1)) :
    ReadFails v file buffer bytes cb cctx rx w ↔
      v.ReadStopped (w.file file).fileSize.toNat (w.file file).currentCluster o bytes.toNat := by
  have hbytes : 0 ≤ bytes.toInt := by omega
  constructor
  · intro hfails
    by_contra hno
    -- the card does what it should
    have hread := @completes_readPast v v.Answers file buffer cctx cb bytes o w rx
      (fun _ _ _ h => h.1) hoff hbyte hbytes hfresh
    obtain ⟨_, rx', w', k, status, rfl, hends, hrun⟩ :=
      hread.exists_runs v.exists_answers fun _ _ => ⟨rfl, rfl, fun _ => rfl, fun _ _ => rfl⟩
    exact hfails rx' w' status (hrun.mono fun _ _ _ h => h.1) (hends.2 (fun _ _ _ h => h.2) hno)
  · intro hstopped rx' w' status hrun hstatus
    have hread := @completes_readPast v (fun b rx _ => rx = v.disk b) file buffer cctx cb bytes o w rx
      (fun _ _ _ h => h) hoff hbyte hbytes hfresh
    obtain ⟨_, hends⟩ := hread.of_runs hrun rfl
    exact hends.1 hstatus hstopped

/-- Twelve hundred bytes of the two-cluster file would be enough for a third sector. -/
theorem fsRead_past_stopped :
    ReadFails (smallVolume twoClusterDisk) 0x100 0x8000 1200 .client 0 (fun _ => 0) (twoClusterWorld 5) :=
  (fsRead_past_iff (smallVolume twoClusterDisk) 0x100 0x8000 1200 .client 0 (fun _ => 0)
    (twoClusterWorld 5) 5 (by decide) (by decide) (by decide) (by decide) nofun).2
      (Or.inl ⟨1024, by decide, by decide⟩)

/-- Two hundred bytes from position 600 are read, though there are only a hundred left. -/
theorem fsRead_past_succeeds :
    FillsChain (smallVolume twoClusterDisk) [2, 3] ((twoClusterWorld 600).file 0x100) ∧
      ConsistentAt (smallVolume twoClusterDisk) [2, 3] ((twoClusterWorld 600).file 0x100) 600 ∧
      (((twoClusterWorld 600).file 0x100).fileSize.toNat : Int) < 600 + (200 : Word).toInt ∧
      ¬ ReadFails (smallVolume twoClusterDisk) 0x100 0x8000 200 .client 0 (fun _ => 0)
        (twoClusterWorld 600) := by
  refine ⟨⟨show Linked _ _ 2 _ by decide, by decide⟩,
    ⟨by decide, by decide, fun _ => by decide, by decide, by decide⟩, by decide, fun hfails => ?_⟩
  have hread := @completes_readPast (smallVolume twoClusterDisk) (smallVolume twoClusterDisk).Answers
    0x100 0x8000 0 .client 200 600 (twoClusterWorld 600) (fun _ => 0) (fun _ _ _ h => h.1) (by decide)
    (by decide) (by decide) nofun
  obtain ⟨_, rx', w', k, status, rfl, hends, hrun⟩ :=
    hread.exists_runs (Volume.exists_answers _) fun _ _ => ⟨rfl, rfl, fun _ => rfl, fun _ _ => rfl⟩
  exact hfails rx' w' status (hrun.mono fun _ _ _ h => h.1)
    (hends.2 (fun _ _ _ h => h.2) (not_readStopped (by decide)))

end RiscyOS
