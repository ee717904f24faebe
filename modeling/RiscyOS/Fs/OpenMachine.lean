import RiscyOS.Fs.Faults
import RiscyOS.Fs.PathBuffer
import RiscyOS.Lib.Statuses

/-!
# An open as a machine of its own

What a step of an open does next is decided by its context, the sector it is handed and the status.  So an
open is followed by a machine whose states are contexts: `openStep` says what becomes of the context, and
`fsOpenStep_eq` that `fs_open_step` does just that, whatever else is in the world.

A run of the open on a card, with any statuses and with the others at work, is a run of the machine
(`openTo_of_answered`), and every run of the machine is one of the open (`exists_answered`).
-/

set_option autoImplicit false

namespace RiscyOS

open Memory Callback

/-! ## The machine -/

/-- What becomes of an open. -/
inductive OpenOutcome
  /-- It asks for the sector at `current_lba`. -/
  | posted (c : FsOpenCtx)
  /-- It is over, and has found a file or not. -/
  | finished (c : FsOpenCtx) (e : Option DirEntry)
  /-- It was over before. -/
  | ignored
  deriving DecidableEq, Repr

/-- One step. -/
def openStep (d : FatDriver) (rx : Sector) (c : FsOpenCtx) (status : Int) : OpenOutcome :=
  if status ≠ 0 then .finished { c with state := .error } none else
    match c.state with
    | .parseDirSector =>
      match scanDir rx c.walker.component83 entriesPerSector 0 with
      | .endOfDir => .finished { c with state := .notFound } none
      | .found e =>
        if !pathWalkerHasNext c.walker then .finished { c with state := .done } (some e)
        else .posted { c with
          state := .parseDirSector
          walker := pathWalkerAdvance c.walker
          currentCluster := e.cluster
          currentLba := d.clusterToLba e.cluster
          sectorInCluster := 0 }
      | .noMatch =>
        if d.sectorsPerCluster ≤ c.sectorInCluster + 1 then .posted { c with
          state := .processFat
          currentLba := d.fatCalcualteLba c.currentCluster
          sectorInCluster := c.sectorInCluster + 1 }
        else .posted { c with
          state := .parseDirSector
          currentLba := c.currentLba + 1
          sectorInCluster := c.sectorInCluster + 1 }
    | .processFat =>
      let next := d.getNextCluster rx c.currentCluster
      if EndOfChain next then .finished { c with state := .notFound } none
      else .posted { c with
        state := .parseDirSector
        currentCluster := next
        currentLba := d.clusterToLba next
        sectorInCluster := 0 }
    | .done | .notFound | .error => .ignored

/-- The file is stored, if one was found. -/
def storeOpened (outFile : Ptr) (e : Option DirEntry) (w : FsWorld) : FsWorld :=
  match e with
  | some e => w.setFile outFile e.openedFile
  | none => w

/-- What the world and the next action are, given the outcome of a step in the world `w`. -/
def OpenShows (p : Ptr) (w : FsWorld) : OpenOutcome → FsWorld × FsAction → Prop
  | .posted c, r => ∃ cell, r = (({ w with cell := cell }).setOpenCtx p c,
      .post c.currentLba (.fsOpenStep, p))
  | .finished c e, r => r = fsOpenFinish p ((storeOpened c.outFile e w).setOpenCtx p c)
  | .ignored, r => r = (w, .stop)

/-- After the end nothing is asked for. -/
theorem fsOpenFinish_ne_post (p : Ptr) (w : FsWorld) (b : Word) (k : FsClosure) :
    (fsOpenFinish p w).2 ≠ .post b k := by
  rw [fsOpenFinish]
  dsimp only
  split
  · simp
  · split <;> simp

/-- **A step of an open** is a step of the machine. -/
theorem fsOpenStep_eq (d : FatDriver) (rx : Sector) (p : Ptr) (status : Int) (w : FsWorld) :
    OpenShows p w (openStep d rx (w.openCtx p) status) (fsOpenStep d rx p status w) := by
  rw [openStep, fsOpenStep]
  dsimp only
  by_cases hstatus : status = 0
  · rw [if_neg (not_not.2 hstatus), if_neg (not_not.2 hstatus)]
    cases hstate : (w.openCtx p).state with
    | parseDirSector =>
      dsimp only
      cases hscan : scanDir rx (w.openCtx p).walker.component83 entriesPerSector 0 with
      | endOfDir => exact rfl
      | found e =>
        dsimp only
        by_cases hlast : pathWalkerHasNext (w.openCtx p).walker = true
        · rw [hlast]
          refine ⟨(storeParentCluster (w.openCtx p).parentClusterStorage e.cluster w).cell, ?_⟩
          rw [fsOpenPostIo, storeParentCluster_setOpenCtx, setOpenCtx_openCtx, setOpenCtx_setOpenCtx,
            storeParentCluster_eq]
          rfl
        · rw [Bool.not_eq_true] at hlast
          rw [hlast]
          exact rfl
      | noMatch =>
        dsimp only
        by_cases hend : d.sectorsPerCluster ≤ (w.openCtx p).sectorInCluster + 1
        · rw [if_pos hend, if_pos hend, fsOpenPostIo, setOpenCtx_openCtx, setOpenCtx_setOpenCtx]
          exact ⟨w.cell, rfl⟩
        · rw [if_neg hend, if_neg hend, fsOpenPostIo, setOpenCtx_openCtx, setOpenCtx_setOpenCtx]
          exact ⟨w.cell, rfl⟩
    | processFat =>
      dsimp only
      by_cases hend : EndOfChain (d.getNextCluster rx (w.openCtx p).currentCluster)
      · rw [if_pos hend, if_pos hend]
        exact rfl
      · rw [if_neg hend, if_neg hend, fsOpenPostIo, setOpenCtx_openCtx, setOpenCtx_setOpenCtx]
        exact ⟨w.cell, rfl⟩
    | done | notFound | error => exact rfl
  · rw [if_pos hstatus, if_pos hstatus]
    exact rfl

/-! ## Where it starts -/

/-- The cluster that `set_initial_dir` begins at. -/
def startCluster (d : FatDriver) (path : List Byte) (procId : Byte) (w : FsWorld) : Word :=
  if path.head? = some slash ∨ procId = 0 then d.rootDirFirstCluster
  else (w.pcb (w.pcbOfId procId)).parentDirCluster

/-- The walker with the first component read and packed. -/
def firstWalker (path : List Byte) : PathWalker :=
  let walker := pathWalkerAdvance ⟨path, 0, [], List.replicate 11 0⟩
  { walker with component83 := makeFat83Name walker.component }

/-- The context of an open that asks for the first sector of the directory it starts at. -/
def firstCtx (d : FatDriver) (path : List Byte) (start : Word) (outFile : Ptr) (procId : Byte)
    (callback : Option FsCallback) (callerContext parentClusterStorage : Ptr) : FsOpenCtx where
  state := .parseDirSector
  walker := firstWalker path
  currentCluster := start
  currentLba := d.clusterToLba start
  sectorInCluster := 0
  outFile := outFile
  parentClusterStorage := parentClusterStorage
  procId := procId
  onComplete := callback
  callerCtx := callerContext

/-- **An open submitted** has that context, and asks for that sector. -/
theorem fsOpenSubmit_eq (d : FatDriver) (path : List Byte) (outFile : Ptr) (procId : Byte)
    (callback : Option FsCallback) (callerContext parentClusterStorage : Ptr) (w : FsWorld) :
    ∃ cell, fsOpenSubmitWithDirParent d path outFile procId callback callerContext
        parentClusterStorage w =
      (({ w.kmalloc.2 with cell := cell }).setOpenCtx w.kmalloc.1
          (firstCtx d path (startCluster d path procId w) outFile procId callback callerContext
            parentClusterStorage),
        .post (d.clusterToLba (startCluster d path procId w)) (.fsOpenStep, w.kmalloc.1)) := by
  refine ⟨(storeParentCluster parentClusterStorage (startCluster d path procId w) w.kmalloc.2).cell, ?_⟩
  rw [fsOpenSubmitWithDirParent, setInitialDir, fsOpenPostIo]
  simp only [setOpenCtx_openCtx, setOpenCtx_setOpenCtx, storeParentCluster_setOpenCtx]
  rw [storeParentCluster_eq]
  rfl

/-! ## Runs -/

/-- What the others leave alone while a request of an open is outstanding: its context, and the table of
processes. -/
def OthersOpen (k : FsClosure) (w w' : FsWorld) : Prop :=
  w'.openCtx k.2 = w.openCtx k.2 ∧ w'.pcbOfId = w.pcbOfId

/-- What is observed of an open. -/
inductive OpenEvent
  /-- A sector of the cluster is looked through as a part of a directory. -/
  | parses (c : Word)
  /-- The entry is opened. -/
  | opens (e : DirEntry)
  /-- The process is unblocked. -/
  | unblocks (pcb : Ptr)
  deriving DecidableEq, Repr

/-- What `fs_open_finish` gives rise to. -/
def finishEvents (ids : Byte → Ptr) (c : FsOpenCtx) : List OpenEvent :=
  if c.procId ≠ 0 then [.unblocks (ids c.procId)] else []

/-- What a step of an open gives rise to, with its context `c` and the table of processes `ids`. -/
def stepEvents (d : FatDriver) (ids : Byte → Ptr) (rx : Sector) (c : FsOpenCtx) (status : Int) :
    List OpenEvent :=
  (if status = 0 ∧ c.state = .parseDirSector then [.parses c.currentCluster] else []) ++
    match openStep d rx c status with
    | .finished c (some e) => .opens e :: finishEvents ids c
    | .finished c none => finishEvents ids c
    | .posted _ | .ignored => []

/-- What a call of a closure gives rise to. -/
def openEvents (d : FatDriver) (rx : Sector) (k : FsClosure) (status : Int) (w : FsWorld) :
    List OpenEvent :=
  stepEvents d w.pcbOfId rx (w.openCtx k.2) status

/-- The runs of an open on a card. -/
abbrev OpenAnswered (d : FatDriver) (disk : Word → Sector) :=
  Answered (fsCode d) disk OthersOpen (openEvents d)

/-- The runs of the machine. -/
inductive OpenTo (d : FatDriver) (disk : Word → Sector) (ids : Byte → Ptr) (c₀ : FsOpenCtx) :
    List Int → List OpenEvent → OpenOutcome → Prop
  | nil : OpenTo d disk ids c₀ [] [] (.posted c₀)
  | snoc {statuses : List Int} {events : List OpenEvent} {c : FsOpenCtx} (status : Int)
      (h : OpenTo d disk ids c₀ statuses events (.posted c)) :
      OpenTo d disk ids c₀ (statuses ++ [status])
        (events ++ stepEvents d ids (disk c.currentLba) c status)
        (openStep d (disk c.currentLba) c status)

/-- The parts of the context that stay as they are. -/
structure SameRequest (c₀ c : FsOpenCtx) : Prop where
  outFile : c.outFile = c₀.outFile
  procId : c.procId = c₀.procId
  onComplete : c.onComplete = c₀.onComplete
  callerCtx : c.callerCtx = c₀.callerCtx

theorem SameRequest.refl (c : FsOpenCtx) : SameRequest c c := ⟨rfl, rfl, rfl, rfl⟩

theorem SameRequest.trans {c₀ c c' : FsOpenCtx} (h : SameRequest c₀ c) (h' : SameRequest c c') :
    SameRequest c₀ c' :=
  ⟨h'.outFile.trans h.outFile, h'.procId.trans h.procId, h'.onComplete.trans h.onComplete,
    h'.callerCtx.trans h.callerCtx⟩

/-- An open that is on its way. -/
def FsOpenCtx.Waiting (c : FsOpenCtx) : Prop := c.state = .parseDirSector ∨ c.state = .processFat

/-- What is known of an outcome: it is of the same request, and its state says what it is. -/
def OpenOutcome.Of (c₀ : FsOpenCtx) : OpenOutcome → Prop
  | .posted c => SameRequest c₀ c ∧ c.Waiting
  | .finished c e => SameRequest c₀ c ∧ (c.state = .done ↔ e.isSome)
  | .ignored => False

/-- **One step** of an open on its way. -/
theorem openStep_of (d : FatDriver) (rx : Sector) {c : FsOpenCtx} (hc : c.Waiting) (status : Int) :
    (openStep d rx c status).Of c := by
  have hfailed : ∀ s, s ≠ FsOpenState.done → (OpenOutcome.finished { c with state := s } none).Of c :=
    fun s hs => ⟨⟨rfl, rfl, rfl, rfl⟩, iff_of_false hs Bool.false_ne_true⟩
  rw [openStep]
  split
  · exact hfailed _ (by decide)
  rcases hc with hstate | hstate <;> rw [hstate] <;> dsimp only
  · split
    · exact hfailed _ (by decide)
    · split
      · exact ⟨⟨rfl, rfl, rfl, rfl⟩, iff_of_true rfl rfl⟩
      · exact ⟨⟨rfl, rfl, rfl, rfl⟩, Or.inl rfl⟩
    · split
      · exact ⟨⟨rfl, rfl, rfl, rfl⟩, Or.inr rfl⟩
      · exact ⟨⟨rfl, rfl, rfl, rfl⟩, Or.inl rfl⟩
  · split
    · exact hfailed _ (by decide)
    · exact ⟨⟨rfl, rfl, rfl, rfl⟩, Or.inl rfl⟩

/-- **A run** of the machine. -/
theorem OpenTo.of {d : FatDriver} {disk : Word → Sector} {ids : Byte → Ptr} {c₀ : FsOpenCtx}
    {statuses : List Int} {events : List OpenEvent} {out : OpenOutcome}
    (h : OpenTo d disk ids c₀ statuses events out) (hc₀ : c₀.Waiting) : out.Of c₀ := by
  have htrans : ∀ {c : FsOpenCtx} {out : OpenOutcome}, SameRequest c₀ c → out.Of c → out.Of c₀ := by
    intro c out hc hout
    cases out with
    | posted c' => exact ⟨hc.trans hout.1, hout.2⟩
    | finished c' e => exact ⟨hc.trans hout.1, hout.2⟩
    | ignored => exact hout
  generalize hr : out = out' at h ⊢
  induction h generalizing out with
  | nil => exact ⟨.refl _, hc₀⟩
  | snoc status _ ih =>
    obtain ⟨hsame, hwaiting⟩ := ih rfl
    exact htrans hsame (openStep_of _ _ hwaiting status)

section Runs

variable {d : FatDriver} {disk : Word → Sector} {p : Ptr} {c₀ : FsOpenCtx} {w₀ : FsWorld}

/-- The world and the next action, given what has become of the open since the world `w₀`. -/
def OpenReached (p : Ptr) (w₀ : FsWorld) : OpenOutcome → FsWorld × FsAction → Prop
  | .posted c, r => r.1.openCtx p = c ∧ r.1.pcbOfId = w₀.pcbOfId ∧
      r.2 = .post c.currentLba (.fsOpenStep, p)
  | .finished c e, r =>
      ∃ w, w.pcbOfId = w₀.pcbOfId ∧ r = fsOpenFinish p ((storeOpened c.outFile e w).setOpenCtx p c)
  | .ignored, r => r.2 = .stop

theorem storeOpened_pcbOfId (outFile : Ptr) (e : Option DirEntry) (w : FsWorld) :
    (storeOpened outFile e w).pcbOfId = w.pcbOfId := by
  cases e <;> rfl

/-- What a completion leads to. -/
theorem openReached_step {c : FsOpenCtx} {w w' : FsWorld} {status : Int} (hctx : w.openCtx p = c)
    (hids : w.pcbOfId = w₀.pcbOfId) (hR : OthersOpen (.fsOpenStep, p) w w') (rx : Sector) :
    openEvents d rx (.fsOpenStep, p) status w' = stepEvents d w₀.pcbOfId rx c status ∧
      OpenReached p w₀ (openStep d rx c status) (fsOpenStep d rx p status w') := by
  obtain ⟨hctx', hids'⟩ := hR
  have hstep := fsOpenStep_eq d rx p status w'
  rw [hctx'.trans hctx] at hstep
  refine ⟨by rw [openEvents, hctx'.trans hctx, hids'.trans hids], ?_⟩
  cases hout : openStep d rx c status with
  | posted c' =>
    rw [hout] at hstep
    obtain ⟨cell, heq⟩ := hstep
    rw [heq]
    exact ⟨setOpenCtx_openCtx .., hids'.trans hids, rfl⟩
  | finished c' e =>
    rw [hout] at hstep
    exact ⟨w', hids'.trans hids, hstep⟩
  | ignored =>
    rw [hout] at hstep
    rw [show fsOpenStep d rx p status w' = (w', .stop) from hstep]
    exact rfl

/-- **A run of an open is a run of its machine.** -/
theorem openTo_of_answered {statuses : List Int} {events : List OpenEvent} {r : FsWorld × FsAction}
    (h : OpenAnswered d disk (w₀, .post c₀.currentLba (.fsOpenStep, p)) statuses events r)
    (hctx : w₀.openCtx p = c₀) (hc₀ : c₀.Waiting) :
    ∃ out, OpenTo d disk w₀.pcbOfId c₀ statuses events out ∧ OpenReached p w₀ out r := by
  generalize hr : r = r' at h
  induction h generalizing r with
  | nil => exact ⟨_, .nil, hctx, rfl, rfl⟩
  | @snoc statuses events w w' b k status _ hR ih =>
    obtain ⟨out, hto, hreached⟩ := ih rfl
    cases out with
    | posted c =>
      obtain ⟨hctx', hids, hpost⟩ := hreached
      obtain ⟨rfl, rfl⟩ : b = c.currentLba ∧ k = (.fsOpenStep, p) := by
        injection hpost with hb hk
        exact ⟨hb, hk⟩
      obtain ⟨hevents, hreached'⟩ := @openReached_step d _ _ _ _ _ status hctx' hids hR (disk c.currentLba)
      rw [hevents]
      exact ⟨_, .snoc status hto, hreached'⟩
    | finished c e =>
      -- nothing is asked for after the end
      obtain ⟨w₁, -, heq⟩ := hreached
      have hno := fsOpenFinish_ne_post p ((storeOpened c.outFile e w₁).setOpenCtx p c) b k
      rw [← heq] at hno
      exact absurd rfl hno
    | ignored => exact absurd (hto.of hc₀) id

/-- **A run of the machine is one of the open**, with the others doing nothing. -/
theorem exists_answered {statuses : List Int} {events : List OpenEvent} {out : OpenOutcome}
    (h : OpenTo d disk w₀.pcbOfId c₀ statuses events out) (hctx : w₀.openCtx p = c₀) :
    ∃ r, OpenAnswered d disk (w₀, .post c₀.currentLba (.fsOpenStep, p)) statuses events r ∧
      OpenReached p w₀ out r := by
  induction h with
  | nil => exact ⟨_, .nil, hctx, rfl, rfl⟩
  | @snoc statuses events c status _ ih =>
    obtain ⟨⟨w, a⟩, hrun, hctx', hids, rfl⟩ := ih
    obtain ⟨hevents, hreached⟩ := @openReached_step d _ _ _ _ _ status hctx' hids ⟨rfl, rfl⟩
      (disk c.currentLba)
    exact ⟨_, hevents ▸ .snoc status hrun ⟨rfl, rfl⟩, hreached⟩

end Runs

section Submitted

variable {d : FatDriver} {disk : Word → Sector} {path : List Byte} {outFile : Ptr} {procId : Byte}
  {callback : Option FsCallback} {callerContext storage : Ptr} {w : FsWorld} {statuses : List Int}
  {events : List OpenEvent}

/-- **A run of an open, from its submission**, is a run of its machine from the first context. -/
theorem openTo_of_submit {r : FsWorld × FsAction}
    (h : OpenAnswered d disk
      (fsOpenSubmitWithDirParent d path outFile procId callback callerContext storage w) statuses events r) :
    ∃ out, OpenTo d disk w.pcbOfId (firstCtx d path (startCluster d path procId w) outFile procId callback
        callerContext storage) statuses events out ∧ OpenReached w.kmalloc.1 w out r := by
  obtain ⟨cell, heq⟩ := fsOpenSubmit_eq d path outFile procId callback callerContext storage w
  rw [heq] at h
  exact @openTo_of_answered d disk w.kmalloc.1 _
    (({ w.kmalloc.2 with cell := cell } : FsWorld).setOpenCtx w.kmalloc.1 (firstCtx d path
      (startCluster d path procId w) outFile procId callback callerContext storage))
    statuses events r h (setOpenCtx_openCtx ..) (Or.inl rfl)

/-- **A run of the machine from the first context** is one of the open. -/
theorem exists_submit_answered {out : OpenOutcome}
    (h : OpenTo d disk w.pcbOfId (firstCtx d path (startCluster d path procId w) outFile procId callback
      callerContext storage) statuses events out) :
    ∃ r, OpenAnswered d disk
        (fsOpenSubmitWithDirParent d path outFile procId callback callerContext storage w) statuses events r ∧
      OpenReached w.kmalloc.1 w out r := by
  obtain ⟨cell, heq⟩ := fsOpenSubmit_eq d path outFile procId callback callerContext storage w
  rw [heq]
  exact @exists_answered d disk w.kmalloc.1 _
    (({ w.kmalloc.2 with cell := cell } : FsWorld).setOpenCtx w.kmalloc.1 (firstCtx d path
      (startCluster d path procId w) outFile procId callback callerContext storage))
    statuses events out h (setOpenCtx_openCtx ..)

end Submitted

end RiscyOS
