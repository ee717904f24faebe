import RiscyOS.Fs.OpenDirectories

/-!
# How an open is reported

An open for the kernel calls back with status zero if it has found the file and with `-1` otherwise.  An
open for a process puts a value in the `TF_A0` of the process and unblocks it.  Both go by the same variable
of `fs_open_finish`, which is zero for a success, and the second takes it for the opposite: the pointer to
the file is delivered where there is none, and zero where there is one.

The two opens are one machine with a different addressee (`OpenTo.readdress`), so that the rest agrees: they
end after the same completions, and the process is unblocked once (`fsOpen_reports_iff`).
-/

set_option autoImplicit false

namespace RiscyOS

open Memory Callback

/-! ## The same open for someone else -/

/-- The context with another addressee. -/
def FsOpenCtx.readdress (procId : Byte) (callback : Option FsCallback) (callerContext : Ptr)
    (c : FsOpenCtx) : FsOpenCtx :=
  { c with procId := procId, onComplete := callback, callerCtx := callerContext }

/-- An outcome with another addressee. -/
def OpenOutcome.readdress (procId : Byte) (callback : Option FsCallback) (callerContext : Ptr) :
    OpenOutcome → OpenOutcome
  | .posted c => .posted (c.readdress procId callback callerContext)
  | .finished c e => .finished (c.readdress procId callback callerContext) e
  | .ignored => .ignored

section Readdress

variable {d : FatDriver} {disk : Word → Sector} {ids : Byte → Ptr} {c₀ : FsOpenCtx} {procId : Byte}
  {callback : Option FsCallback} {callerContext : Ptr} {statuses : List Int} {events events' : List OpenEvent}
  {out out' : OpenOutcome}

/-- No step looks at the addressee. -/
theorem openStep_readdress (rx : Sector) (c : FsOpenCtx) (status : Int) :
    openStep d rx (c.readdress procId callback callerContext) status =
      (openStep d rx c status).readdress procId callback callerContext := by
  rw [openStep, openStep]
  by_cases hstatus : status = 0
  · rw [if_neg (not_not.2 hstatus), if_neg (not_not.2 hstatus),
      show (c.readdress procId callback callerContext).state = c.state from rfl]
    cases c.state with
    | parseDirSector =>
      dsimp only
      rw [show (c.readdress procId callback callerContext).walker = c.walker from rfl,
        show (c.readdress procId callback callerContext).sectorInCluster = c.sectorInCluster from rfl]
      cases scanDir rx c.walker.component83 entriesPerSector 0 with
      | endOfDir => rfl
      | found e =>
        dsimp only
        split <;> rfl
      | noMatch =>
        dsimp only
        split <;> rfl
    | processFat =>
      dsimp only
      rw [show (c.readdress procId callback callerContext).currentCluster = c.currentCluster from rfl]
      split <;> rfl
    | done | notFound | error => rfl
  · rw [if_pos hstatus, if_pos hstatus]
    rfl

/-- **A run for someone else.** -/
theorem OpenTo.readdress (h : OpenTo d disk ids c₀ statuses events out) (procId : Byte)
    (callback : Option FsCallback) (callerContext : Ptr) :
    ∃ events', OpenTo d disk ids (c₀.readdress procId callback callerContext) statuses events'
      (out.readdress procId callback callerContext) := by
  induction h with
  | nil => exact ⟨[], .nil⟩
  | @snoc statuses events c status _ ih =>
    obtain ⟨events', hto⟩ := ih
    rw [← openStep_readdress]
    exact ⟨_, .snoc status hto⟩

/-- A machine that is given the same statuses does the same. -/
theorem OpenTo.unique (h : OpenTo d disk ids c₀ statuses events out)
    (h' : OpenTo d disk ids c₀ statuses events' out') : out' = out := by
  generalize hss : statuses = statuses' at h'
  induction h generalizing statuses' events' out' with
  | nil =>
    cases h' with
    | nil => rfl
    | snoc status _ => exact absurd hss.symm (List.append_ne_nil_of_right_ne_nil _ (List.cons_ne_nil _ _))
  | @snoc statuses events c status _ ih =>
    cases h' with
    | nil => exact absurd hss (List.append_ne_nil_of_right_ne_nil _ (List.cons_ne_nil _ _))
    | @snoc statuses' events' c' status' h' =>
      obtain ⟨hinit, hlast⟩ := List.append_inj' hss rfl
      obtain rfl := OpenOutcome.posted.inj (ih _ hinit h')
      rw [(List.cons.inj hlast).1]

/-! ## Whom it unblocks -/

/-- The processes that are unblocked. -/
def unblocked (events : List OpenEvent) : List Ptr :=
  events.filterMap fun
    | .unblocks pcb => some pcb
    | .parses _ | .opens _ => none

theorem unblocked_append (l l' : List OpenEvent) : unblocked (l ++ l') = unblocked l ++ unblocked l' :=
  List.filterMap_append

theorem unblocked_finishEvents (c : FsOpenCtx) :
    unblocked (finishEvents ids c) = if c.procId ≠ 0 then [ids c.procId] else [] := by
  rw [finishEvents]
  split <;> rfl

/-- The process that is unblocked with an outcome. -/
def OpenOutcome.unblocks (ids : Byte → Ptr) : OpenOutcome → List Ptr
  | .finished c _ => if c.procId ≠ 0 then [ids c.procId] else []
  | .posted _ | .ignored => []

/-- One step. -/
theorem unblocked_stepEvents (rx : Sector) (c : FsOpenCtx) (status : Int) :
    unblocked (stepEvents d ids rx c status) = (openStep d rx c status).unblocks ids := by
  have hparses : unblocked (if status = 0 ∧ c.state = .parseDirSector then [.parses c.currentCluster]
      else []) = [] := by
    split <;> rfl
  rw [stepEvents, unblocked_append, hparses, List.nil_append]
  cases openStep d rx c status with
  | posted c' => rfl
  | finished c' e => cases e <;> exact unblocked_finishEvents c'
  | ignored => rfl

/-- **An open unblocks no process on its way**, and at its end the one it is for. -/
theorem OpenTo.unblocked_eq (h : OpenTo d disk ids c₀ statuses events out) :
    unblocked events = out.unblocks ids := by
  induction h with
  | nil => rfl
  | @snoc statuses events c status _ ih =>
    rw [unblocked_append, ih, unblocked_stepEvents]
    rfl

end Readdress

/-! ## What is reported -/

/-- An open for process `procId` reports what the open for the kernel with the same statuses reports by
calling back with `status`: it is over, the pointer to the file is in the `TF_A0` of the process if the
status is zero, and zero if it is not, and the process has been unblocked once. -/
def ReportsAlike (d : FatDriver) (disk : Word → Sector) (path : List Byte) (outFile : Ptr) (procId : Byte)
    (callback : Option FsCallback) (callerContext storage : Ptr) (w : FsWorld) (statuses : List Int)
    (status : Int) : Prop :=
  ∀ events r, OpenAnswered d disk
      (fsOpenSubmitWithDirParent d path outFile procId callback callerContext storage w) statuses events r →
    r.2 = .stop ∧ r.1.tfA0 (w.pcbOfId procId) = (if status = 0 then outFile else 0) ∧
      unblocked events = [w.pcbOfId procId]

section Reports

variable {d : FatDriver} {disk : Word → Sector} {path : List Byte} {outFile storage cctx cctx' : Ptr}
  {procId : Byte} {cb : FsCallback} {callback : Option FsCallback} {w : FsWorld} {statuses : List Int}
  {events : List OpenEvent} {r : FsWorld × FsAction} {status : Int}

/-- An open for the kernel calls back. -/
theorem fsOpenFinish_kernel {p : Ptr} (hproc : (w.openCtx p).procId = 0)
    (hcb : (w.openCtx p).onComplete = some cb) :
    fsOpenFinish p w =
      (w, .call (cb, (w.openCtx p).callerCtx) (if (w.openCtx p).state = .done then 0 else -1)) := by
  rw [fsOpenFinish]
  dsimp only
  rw [if_neg (not_not.2 hproc), hcb]

/-- An open for a process delivers the pointer where it has *not* found the file. -/
theorem fsOpenFinish_process {p : Ptr} (hproc : (w.openCtx p).procId ≠ 0) :
    (fsOpenFinish p w).2 = .stop ∧ (fsOpenFinish p w).1.tfA0 (w.pcbOfId (w.openCtx p).procId) =
      if (w.openCtx p).state = .done then 0 else (w.openCtx p).outFile := by
  rw [fsOpenFinish]
  dsimp only
  rw [if_pos hproc]
  refine ⟨rfl, (Function.update_self ..).trans ?_⟩
  split
  · exact if_neg (by decide)
  · exact if_pos (by decide)

/-- **What the open for the process does**, given that the one for the kernel has called back: it ends as
well and unblocks the process once, and what it delivers is the pointer to the file if the status is *not*
zero. -/
theorem process_of_kernel (hproc : procId ≠ 0)
    (hstart : startCluster d path procId w = d.rootDirFirstCluster)
    (hrun : OpenAnswered d disk (fsOpenSubmitWithDirParent d path outFile 0 (some cb) cctx storage w)
      statuses events r) (hcall : r.2 = .call (cb, cctx) status) :
    (∃ events r, OpenAnswered d disk
        (fsOpenSubmitWithDirParent d path outFile procId callback cctx' storage w) statuses events r) ∧
      ∀ events r, OpenAnswered d disk
          (fsOpenSubmitWithDirParent d path outFile procId callback cctx' storage w) statuses events r →
        r.2 = .stop ∧ r.1.tfA0 (w.pcbOfId procId) = (if status = 0 then 0 else outFile) ∧
          unblocked events = [w.pcbOfId procId] := by
  obtain ⟨out, hto, hreached⟩ := openTo_of_submit hrun
  have hof := hto.of (Or.inl rfl)
  obtain ⟨events', hto'⟩ : ∃ events', OpenTo d disk w.pcbOfId (firstCtx d path (startCluster d path procId w)
      outFile procId callback cctx' storage) statuses events' (out.readdress procId callback cctx') := by
    rw [hstart]
    rw [show startCluster d path 0 w = d.rootDirFirstCluster from if_pos (Or.inr rfl)] at hto
    exact hto.readdress procId callback cctx'
  -- the open for the kernel is over, so the other one is
  cases out with
  | posted c => exact absurd (hreached.2.2.symm.trans hcall) nofun
  | ignored => exact absurd hof id
  | finished c e =>
    obtain ⟨hsame, -⟩ := hof
    obtain ⟨w₁, -, hr⟩ := hreached
    have hok : status = if c.state = .done then 0 else -1 := by
      have hctx := setOpenCtx_openCtx (storeOpened c.outFile e w₁) w.kmalloc.1 c
      rw [hr, fsOpenFinish_kernel ((congrArg FsOpenCtx.procId hctx).trans hsame.procId)
        ((congrArg FsOpenCtx.onComplete hctx).trans hsame.onComplete), hctx] at hcall
      injection hcall with _ hstatus
      exact hstatus.symm
    obtain ⟨r', hrun', -⟩ := exists_submit_answered hto'
    refine ⟨⟨events', r', hrun'⟩, fun events₂ r₂ hrun₂ => ?_⟩
    obtain ⟨out₂, hto₂, hreached₂⟩ := openTo_of_submit hrun₂
    obtain rfl := hto'.unique hto₂
    obtain ⟨w₂, hids, rfl⟩ := hreached₂
    have hctx₂ := setOpenCtx_openCtx (storeOpened c.outFile e w₂) w.kmalloc.1
      (c.readdress procId callback cctx')
    have hids₂ : ((storeOpened c.outFile e w₂).setOpenCtx w.kmalloc.1
        (c.readdress procId callback cctx')).pcbOfId = w.pcbOfId :=
      (storeOpened_pcbOfId c.outFile e w₂).trans hids
    obtain ⟨hstop, ha0⟩ := fsOpenFinish_process (p := w.kmalloc.1) (w := (storeOpened c.outFile e
      w₂).setOpenCtx w.kmalloc.1 (c.readdress procId callback cctx')) ((congrArg FsOpenCtx.procId hctx₂).trans_ne hproc)
    rw [hctx₂, hids₂] at ha0
    refine ⟨hstop, ha0.trans ?_, ?_⟩
    · rw [hok]
      change (if c.state = .done then (0 : Word) else c.outFile) = _
      by_cases hdone : c.state = .done
      · rw [if_pos hdone, if_pos hdone]
        exact (if_pos rfl).symm
      · rw [if_neg hdone, if_neg hdone]
        exact hsame.outFile.trans (if_neg (by decide)).symm
    · exact hto₂.unblocked_eq.trans (if_pos hproc)

end Reports

/-- **When the two reports agree.**  For every card, path and statuses, and an open for the kernel that calls
back with them: the same open for a process that starts in the same directory reports the same to the process
if and only if the pointer to the file is null. -/
theorem fsOpen_reports_iff (d : FatDriver) (disk : Word → Sector) (path : List Byte)
    (outFile storage cctx cctx' : Ptr) (procId : Byte) (cb : FsCallback) (callback : Option FsCallback)
    (w : FsWorld) (statuses : List Int) (events : List OpenEvent) (r : FsWorld × FsAction) (status : Int)
    (hproc : procId ≠ 0) (hstart : startCluster d path procId w = d.rootDirFirstCluster)
    (hrun : OpenAnswered d disk (fsOpenSubmitWithDirParent d path outFile 0 (some cb) cctx storage w)
      statuses events r) (hcall : r.2 = .call (cb, cctx) status) :
    ReportsAlike d disk path outFile procId callback cctx' storage w statuses status ↔ outFile = null := by
  obtain ⟨⟨events', r', hrun'⟩, hreports⟩ := @process_of_kernel d disk path outFile storage cctx cctx' procId
    cb callback w statuses events r status hproc hstart hrun hcall
  constructor
  · intro h
    have hsame := (h _ _ hrun').2.1.symm.trans (hreports _ _ hrun').2.1
    by_cases hstatus : status = 0
    · rwa [if_pos hstatus, if_pos hstatus] at hsame
    · rw [if_neg hstatus, if_neg hstatus] at hsame
      exact hsame.symm
  · rintro rfl events₂ r₂ hrun₂
    obtain ⟨hstop, ha0, hunblocked⟩ := hreports _ _ hrun₂
    refine ⟨hstop, ha0.trans ?_, hunblocked⟩
    split <;> rfl

/-! ### Two reports of one file

`/A` is on the small card. -/

/-- The open for the kernel. -/
def kernelOpen : FsWorld × FsAction :=
  fsOpenSubmitWithDirParent smallDriver [0x2F, 0x41] 0x100 0 (some .client) 0 null emptyWorld

/-- Its only completion. -/
def kernelOpened : FsWorld × FsAction := fsOpenStep smallDriver (treeDisk 10) 0x1000 0 kernelOpen.1

theorem kernelOpen_answered : OpenAnswered smallDriver treeDisk kernelOpen [0]
    (openEvents smallDriver (treeDisk 10) (.fsOpenStep, 0x1000) 0 kernelOpen.1) kernelOpened :=
  @Answered.snoc Sector FsWorld Word FsClosure OpenEvent (fsCode smallDriver) treeDisk OthersOpen
    (openEvents smallDriver) kernelOpen [] [] kernelOpen.1 kernelOpen.1 10 (.fsOpenStep, 0x1000) 0 .nil
    ⟨rfl, rfl⟩

/-- It has found the file. -/
theorem kernelOpened_call : kernelOpened.2 = .call (.client, 0) 0 := by decide +kernel

/-- The pointer to it is not what the process gets. -/
theorem fsOpen_reports_tree :
    ReportsAlike smallDriver treeDisk [0x2F, 0x41] 0x100 1 none 0 null emptyWorld [0] 0 ↔
      (0x100 : Ptr) = null :=
  fsOpen_reports_iff smallDriver treeDisk [0x2F, 0x41] 0x100 null 0 0 1 .client none emptyWorld [0] _
    kernelOpened 0 (by decide) rfl kernelOpen_answered kernelOpened_call

/-- What it gets is zero. -/
theorem fsOpen_reports_differ :
    OpenAnswered smallDriver treeDisk kernelOpen [0]
        (openEvents smallDriver (treeDisk 10) (.fsOpenStep, 0x1000) 0 kernelOpen.1) kernelOpened ∧
      kernelOpened.2 = .call (.client, 0) 0 ∧
      ¬ ReportsAlike smallDriver treeDisk [0x2F, 0x41] 0x100 1 none 0 null emptyWorld [0] 0 := by
  refine ⟨kernelOpen_answered, kernelOpened_call, fun h => ?_⟩
  obtain ⟨⟨events, r, hrun⟩, hreports⟩ := @process_of_kernel smallDriver treeDisk [0x2F, 0x41] 0x100 null 0 0
    1 .client none emptyWorld [0] _ kernelOpened 0 (by decide) rfl kernelOpen_answered kernelOpened_call
  have hpointer := (h _ _ hrun).2.1
  rw [(hreports _ _ hrun).2.1] at hpointer
  exact absurd hpointer (by decide)

end RiscyOS
