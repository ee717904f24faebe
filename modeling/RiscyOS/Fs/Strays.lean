import RiscyOS.Fs.Ownership

/-!
# Whose reads the card does

With a card that does what it should, the scheduler has at most one read outstanding, that of the
request in flight, and every completion on the ring belongs to it.  That is `SdOwned`.  The file
system keeps to it as long as `fat_calcualte_lba` only computes.  It does so for the clusters whose
entry is in a sector beyond `FAT_SECTOR_COUNT`, counted from the start of the card and compared as
signed numbers; for every other cluster it asks the card for the sector itself.  So
`fs_sd_owned_iff`: the card is the scheduler's in every run in which no such cluster is looked up,
and it is not after the first that is.
-/

set_option autoImplicit false

namespace RiscyOS

open Memory FsEffect

section Strays

variable {info : FsRunningInfo} {getNextCluster : Sector → Word → Word} {disk : Word → Sector}
  {s s' : FsSys} {e : FsEvent}

/-- How the card takes a command of the event. -/
def FsEvent.response : FsEvent → SdResponse
  | .start _ _ _ resp | .call _ _ resp | .ret resp => resp
  | .irq | .spurious | .pump | .test _ => .transfer

/-- The card does what it should. -/
def CardOk (e : FsEvent) : Prop := e.response = .transfer ∧ e ≠ .spurious

/-- The event looks up clusters only where `fat_calcualte_lba` leaves the card alone: the sector
of the table is beyond the size of the table. -/
def NoStray (info : FsRunningInfo) (getNextCluster : Sector → Word → Word) (e : FsEvent)
    (s : FsSys) : Prop :=
  ∀ run, e.code info getNextCluster s = some run → ∀ c, fatLba c ∈ run.2 →
    info.fatSectorCount.toInt < (info.fatSector c).toInt

/-- **The card is the scheduler's.** -/
structure SdOwned (s : FsSys) : Prop where
  /-- Every read has been started by `io_sched_issue_next`. -/
  strays : s.strays = []
  /-- At most one of the reads started has not completed. -/
  outstanding : s.io.log.issued.length + s.strays.length =
    s.io.log.completions + if s.io.reading = none then 0 else 1
  /-- It is that of the request in flight, and no completion is on the ring. -/
  reading : ∀ lba, s.io.reading = some lba → s.io.gIoSched.inFlight ≠ null ∧
    (s.io.req s.io.gIoSched.inFlight).lba = lba ∧ s.io.gSdIrqRing.head = s.io.gSdIrqRing.tail
  /-- A completion on the ring is the only one, and it is that of the request in flight. -/
  completion : s.io.gSdIrqRing.head ≠ s.io.gSdIrqRing.tail →
    s.io.gSdIrqRing.head = s.io.gSdIrqRing.tail + 1 ∧ s.io.gIoSched.inFlight ≠ null ∧
      s.io.reading = none

/-- What the scheduler keeps with a good card. -/
theorem IoInv.sdOwned (h : IoInv disk s.io) (hstrays : s.strays = []) : SdOwned s := by
  obtain ⟨q, -, ⟨hrest, -⟩ | ⟨hflight, hr | hc⟩⟩ := h
  · refine ⟨hstrays, ?_, fun lba hlba => ?_, fun hne => absurd hrest.ring hne⟩
    · rw [hstrays, hrest.issued, hrest.completions, if_pos hrest.reading]
      rfl
    · rw [hrest.reading] at hlba
      exact absurd hlba (by simp)
  · refine ⟨hstrays, ?_, fun lba hlba => ⟨hflight.flight, ?_, hr.ring⟩, fun hne => absurd hr.ring hne⟩
    · rw [hstrays, hflight.issued, hr.completions, if_neg (by rw [hr.reading]; simp)]
      rfl
    · rw [hr.reading] at hlba
      exact Option.some.inj hlba
  · refine ⟨hstrays, ?_, fun lba hlba => ?_, fun _ => ⟨hc.ring, hflight.flight, hc.reading⟩⟩
    · rw [hstrays, hflight.issued, hc.completions, if_pos hc.reading]
      rfl
    · rw [hc.reading] at hlba
      exact absurd hlba (by simp)

/-! ## Reads behind the scheduler's back -/

/-- `fat_calcualte_lba` asks for the sector if it is not beyond the size of the table. -/
theorem strayRead_eq_none_iff {c : Word} :
    info.strayRead c = none ↔ info.fatSectorCount.toInt < (info.fatSector c).toInt := by
  rw [FsRunningInfo.strayRead, ← BitVec.slt_iff_toInt_lt]
  split <;> simp_all

theorem noStray_iff {run : (FsWorld × FsAction) × List FsEffect}
    (hcode : e.code info getNextCluster s = some run) :
    NoStray info getNextCluster e s ↔ run.2.filterMap (strayOf info) = [] := by
  rw [List.filterMap_eq_nil_iff]
  constructor
  · intro h x hx
    cases x with
    | fatLba c => exact strayRead_eq_none_iff.2 (h run hcode c hx)
    | heap | complete => rfl
  · intro h run' hcode' c hc
    obtain rfl := Option.some.inj (hcode.symm.trans hcode')
    exact strayRead_eq_none_iff.1 (h (fatLba c) hc)

theorem noStray_of_code_none (hcode : e.code info getNextCluster s = none) :
    NoStray info getNextCluster e s := fun _ hrun => absurd (hcode.symm.trans hrun) (by simp)

/-- What is submitted or called last adds no stray read. -/
theorem act_strays {act : FsAction} {req : Ptr} {resp : SdResponse}
    (hs : s.act disk req resp act = some s') : s'.strays = s.strays := by
  cases act with
  | post lba k =>
    rw [FsSys.act, Option.map_eq_some_iff] at hs
    obtain ⟨io, -, rfl⟩ := hs
    rfl
  | call k status => exact Option.some.inj hs ▸ rfl
  | stop => exact Option.some.inj hs ▸ rfl

/-- A submission to a good card is an event of the scheduler. -/
theorem act_io {act : FsAction} {req : Ptr} (hs : s.act disk req .transfer act = some s') :
    s'.io = s.io ∨ ∃ e', ioStep disk e' s.io = some s'.io := by
  cases act with
  | post lba k =>
    rw [FsSys.act, Option.map_eq_some_iff] at hs
    obtain ⟨io, hio, rfl⟩ := hs
    have hne : SdEvent.submit req lba k.1 k.2 .transfer ≠ .spurious := by simp
    exact Or.inr ⟨_, sdStep_plain (fun _ => rfl) hne hio⟩
  | call k status => exact Or.inl (Option.some.inj hs ▸ rfl)
  | stop => exact Or.inl (Option.some.inj hs ▸ rfl)

/-- An event that runs a function. -/
theorem perform_io {run : (FsWorld × FsAction) × List FsEffect} {req : Ptr} {resp : SdResponse}
    (hcode : e.code info getNextCluster s = some run) (hresp : resp = .transfer)
    (hstray : NoStray info getNextCluster e s) (hs : s.perform info disk req resp run = some s') :
    s'.io = s.io ∨ ∃ e', ioStep disk e' s.io = some s'.io := by
  have hnone := (noStray_iff hcode).1 hstray
  have hio : (s.book info run.1.1 run.2).io = s.io := by
    rw [FsSys.book, hnone]
    rfl
  rw [← hio]
  exact act_io (hresp ▸ hs)

/-- **An event without stray reads** is one of the scheduler, or none. -/
theorem fsStep_io (hcard : CardOk e) (hstray : NoStray info getNextCluster e s)
    (hs : fsStep info getNextCluster disk e s = some s') :
    s'.io = s.io ∨ ∃ e', ioStep disk e' s.io = some s'.io := by
  obtain ⟨hresp, hspurious⟩ := hcard
  cases e with
  | start op a r1 resp =>
    rw [fsStep, Option.ite_none_right_eq_some, Option.bind_eq_some_iff] at hs
    obtain ⟨-, run, hcode, hs⟩ := hs
    exact perform_io hcode hresp hstray hs
  | call a r1 resp =>
    rw [fsStep, Option.ite_none_right_eq_some, Option.bind_eq_some_iff] at hs
    obtain ⟨-, run, hcode, hs⟩ := hs
    exact perform_io hcode hresp hstray hs
  | irq =>
    rw [fsStep, Option.map_eq_some_iff] at hs
    obtain ⟨io, hio, rfl⟩ := hs
    exact Or.inr ⟨.irq, hio⟩
  | spurious => exact absurd rfl hspurious
  | pump =>
    rw [fsStep, Option.ite_none_right_eq_some, Option.map_eq_some_iff] at hs
    obtain ⟨-, io, hio, rfl⟩ := hs
    exact Or.inr ⟨.pump, hio⟩
  | test status =>
    rw [fsStep, Option.ite_none_right_eq_some] at hs
    obtain ⟨⟨-, hloop⟩, hs⟩ := hs
    refine Or.inr ⟨.test, ?_⟩
    rw [ioStep, if_pos hloop]
    split at hs
    · exact congrArg some (Option.some.inj hs ▸ rfl)
    · rw [Option.ite_none_left_eq_some] at hs
      exact congrArg some (Option.some.inj hs.2 ▸ rfl)
  | ret resp =>
    rw [fsStep] at hs
    split at hs
    · rename_i r hpump
      rw [Option.ite_none_right_eq_some, Option.map_eq_some_iff] at hs
      obtain ⟨-, io, hio, rfl⟩ := hs
      obtain rfl : resp = .transfer := hresp
      have hne : (SdEvent.ret .transfer : SdEvent FsCallback) ≠ .spurious := by simp
      exact Or.inr ⟨_, sdStep_plain (fun _ => rfl) hne hio⟩
    · exact absurd hs (by simp)
    · exact absurd hs (by simp)

/-- **The stray reads of an event** are those of the function it runs. -/
theorem fsStep_strays (hs : fsStep info getNextCluster disk e s = some s') :
    (s'.strays = s.strays ↔ NoStray info getNextCluster e s) := by
  have hrun : ∀ {run : (FsWorld × FsAction) × List FsEffect} {req : Ptr} {resp : SdResponse},
      e.code info getNextCluster s = some run → s.perform info disk req resp run = some s' →
      (s'.strays = s.strays ↔ NoStray info getNextCluster e s) := by
    intro run req resp hcode hs
    rw [noStray_iff hcode, act_strays hs]
    exact List.append_right_eq_self
  have hnone : e.code info getNextCluster s = none → s'.strays = s.strays →
      (s'.strays = s.strays ↔ NoStray info getNextCluster e s) := fun hcode hsame =>
    ⟨fun _ => noStray_of_code_none hcode, fun _ => hsame⟩
  cases e with
  | start op a r1 resp =>
    rw [fsStep, Option.ite_none_right_eq_some, Option.bind_eq_some_iff] at hs
    obtain ⟨-, run, hcode, hs⟩ := hs
    exact hrun hcode hs
  | call a r1 resp =>
    rw [fsStep, Option.ite_none_right_eq_some, Option.bind_eq_some_iff] at hs
    obtain ⟨-, run, hcode, hs⟩ := hs
    exact hrun hcode hs
  | irq | spurious =>
    rw [fsStep, Option.map_eq_some_iff] at hs
    obtain ⟨io, -, rfl⟩ := hs
    exact hnone rfl rfl
  | pump =>
    rw [fsStep, Option.ite_none_right_eq_some, Option.map_eq_some_iff] at hs
    obtain ⟨-, io, -, rfl⟩ := hs
    exact hnone rfl rfl
  | test status =>
    rw [fsStep, Option.ite_none_right_eq_some] at hs
    obtain ⟨-, hs⟩ := hs
    split at hs
    · exact hnone rfl (Option.some.inj hs ▸ rfl)
    · rw [Option.ite_none_left_eq_some] at hs
      exact hnone rfl (Option.some.inj hs.2 ▸ rfl)
  | ret resp =>
    rw [fsStep] at hs
    split at hs
    · rw [Option.ite_none_right_eq_some, Option.map_eq_some_iff] at hs
      obtain ⟨-, io, -, rfl⟩ := hs
      exact hnone rfl rfl
    · exact absurd hs (by simp)
    · exact absurd hs (by simp)

theorem FsReach.io
    (h : FsReach info getNextCluster disk
      (fun e s => CardOk e ∧ NoStray info getNextCluster e s) s) :
    IoReach disk s.io ∧ s.strays = [] := by
  induction h with
  | init w ring req rx => exact ⟨.init ring req rx, rfl⟩
  | @step s s' e _ hP hs ih =>
    obtain ⟨hio, hstrays⟩ := ih
    refine ⟨?_, ((fsStep_strays hs).2 hP.2).trans hstrays⟩
    rcases fsStep_io hP.1 hP.2 hs with heq | ⟨e', he'⟩
    · exact heq ▸ hio
    · exact hio.step he'

/-- **When the card is the scheduler's.**  In a run in which no cluster has been looked up whose
entry is within the size of the table, it is; and the next event keeps it so if and only if it looks
up none either. -/
theorem fs_sd_owned_iff (info : FsRunningInfo) (getNextCluster : Sector → Word → Word)
    (disk : Word → Sector) (s : FsSys)
    (h : FsReach info getNextCluster disk
      (fun e s => CardOk e ∧ NoStray info getNextCluster e s) s) :
    SdOwned s ∧ ∀ (e : FsEvent) (s' : FsSys), CardOk e →
      fsStep info getNextCluster disk e s = some s' →
        (SdOwned s' ↔ NoStray info getNextCluster e s) := by
  obtain ⟨hio, hstrays⟩ := h.io
  refine ⟨hio.inv.sdOwned hstrays, fun e s' hcard hs => ⟨fun howned => ?_, fun hstray => ?_⟩⟩
  · exact (fsStep_strays hs).1 (howned.strays.trans hstrays.symm)
  · obtain ⟨hio', hstrays'⟩ := (h.step ⟨hcard, hstray⟩ hs).io
    exact hio'.inv.sdOwned hstrays'

end Strays

/-! ## A seek

A file of 5000 bytes, on a volume with one sector to the cluster, is sought to its second cluster;
for that the entry of its first cluster is looked up. -/

/-- The file system with the file, after boot. -/
def seekSys : FsSys :=
  { bootSys with world := emptyWorld.setFile 0x500 ⟨0, 2, 2, 0, 0, 0, 5000⟩ }

theorem seekSys_reach {info : FsRunningInfo} {P : FsEvent → FsSys → Prop} :
    FsReach info (fun _ _ => 0) (fun _ _ => 0) P seekSys := .init _ _ _ _

/-- The seek. -/
def seekEvent : FsEvent := .start (.seek 0x500 1000 (some .set) 0x40) (supplyAt 0x1000) 0 .transfer

/-- A volume whose table starts in sector 4 and has 8 sectors. -/
def shortInfo : FsRunningInfo := ⟨1, 4, 100, 8, 2⟩

/-- On a volume whose table starts behind its size, the seek leaves the card to the scheduler. -/
theorem fs_sd_owned_seek :
    ∃ s, fsStep plainInfo (fun _ _ => 0) (fun _ _ => 0) seekEvent seekSys = some s ∧
      s.io.reading = some 32 ∧ SdOwned s := by
  obtain ⟨s, hs⟩ : ∃ s, fsStep plainInfo (fun _ _ => 0) (fun _ _ => 0) seekEvent seekSys = some s :=
    Option.isSome_iff_exists.1 (by decide +kernel)
  have hread : (fsStep plainInfo (fun _ _ => 0) (fun _ _ => 0) seekEvent seekSys).map
      (·.io.reading) = some (some 32) := by decide +kernel
  rw [hs] at hread
  refine ⟨s, hs, Option.some.inj hread,
    ((fs_sd_owned_iff plainInfo (fun _ _ => 0) (fun _ _ => 0) seekSys seekSys_reach).2 seekEvent s
      ⟨rfl, nofun⟩ hs).2 ?_⟩
  intro run hcode c hc
  have heff : (seekEvent.code plainInfo (fun _ _ => 0) seekSys).map (·.2) =
      some [allocCtx .fsSeekStep 0x1000, access 0x1000, fatLba 2] := by decide +kernel
  rw [hcode, Option.map_some, Option.some_inj] at heff
  rw [heff] at hc
  obtain rfl : c = 2 := by simpa using hc
  decide

/-- **On a volume whose table does not**, the seek reads a sector behind the scheduler's back. -/
theorem fs_sd_stray_seek :
    ¬ ∀ s : FsSys, FsReach shortInfo (fun _ _ => 0) (fun _ _ => 0) (fun e _ => CardOk e) s →
      SdOwned s := by
  intro h
  obtain ⟨s, hs⟩ : ∃ s, fsStep shortInfo (fun _ _ => 0) (fun _ _ => 0) seekEvent seekSys = some s :=
    Option.isSome_iff_exists.1 (by decide +kernel)
  have hstrays : (fsStep shortInfo (fun _ _ => 0) (fun _ _ => 0) seekEvent seekSys).map
      (·.strays) = some [4] := by decide +kernel
  rw [hs] at hstrays
  have howned := h s (seekSys_reach.step (e := seekEvent) ⟨rfl, nofun⟩ hs)
  exact absurd ((Option.some.inj hstrays).symm.trans howned.strays) (by simp)

end RiscyOS
