import RiscyOS.Fs.System

/-!
# What a step function can do

Every operation is an open, a read or a seek with a context of its own, and its step function does
one of five things (`Move`): it submits a read and is to be continued; it is called again at once; it
starts a seek that will call it; it completes, freeing the context and calling whoever is next; or it
completes and nobody is called.  Which of them depends on the disk, on the status and on the state,
but there is no other way out, and in particular none that submits a read after the context has been
freed or leaves the context with nothing to continue it.  `Start` is the same for the functions that
start an operation.

Along with each goes what the function leaves alone: the contexts of all other operations (`Frame`).
-/

set_option autoImplicit false

namespace RiscyOS

open Memory FsEffect

/-- The step functions of opens, reads and seeks. -/
def FsCallback.isOp : FsCallback → Bool
  | .fsOpenStep | .fsReadStep | .fsSeekStep => true
  | .elfStep | .client => false

/-- The effects do nothing but look at the context at `p` and compute sectors of the table. -/
def Touches (p : Ptr) (es : List FsEffect) : Prop := ∀ e ∈ es, e = access p ∨ ∃ c, e = fatLba c

/-- Whom an operation calls when it completes, if that may be an operation: only a seek is made on
behalf of another one. -/
def caller (w : FsWorld) (k : FsClosure) : Option FsClosure :=
  match k.1 with
  | .fsSeekStep => some ((w.seekCtx k.2).onComplete, (w.seekCtx k.2).callerCtx)
  | .fsOpenStep | .fsReadStep | .elfStep | .client => none

/-- A context that waits to be continued: it is in a state from which its step function goes on, and
it is to call a client, or a read, or, if there are `loader`s about, a loader. -/
def CtxOk (loader : Prop) (w : FsWorld) (k : FsClosure) : Prop :=
  match k.1 with
  | .fsOpenStep =>
    ((w.openCtx k.2).state = .parseDirSector ∨ (w.openCtx k.2).state = .processFat) ∧
      ∀ cb, (w.openCtx k.2).onComplete = some cb → cb = .client ∨ (loader ∧ cb = .elfStep)
  | .fsReadStep =>
    ((w.readCtx k.2).state = .loadContents ∨ (w.readCtx k.2).state = .copyContents) ∧
      (w.readCtx k.2).callback = .client
  | .fsSeekStep =>
    (w.seekCtx k.2).onComplete = .client ∨ (w.seekCtx k.2).onComplete = .fsReadStep
  | .elfStep | .client => True

/-- All contexts but those of `own` are as before. -/
structure Frame (w w' : FsWorld) (own : List FsClosure) : Prop where
  opens : ∀ p, (.fsOpenStep, p) ∉ own → w'.openCtx p = w.openCtx p
  reads : ∀ p, (.fsReadStep, p) ∉ own → w'.readCtx p = w.readCtx p
  seeks : ∀ p, (.fsSeekStep, p) ∉ own → w'.seekCtx p = w.seekCtx p

section Frame

variable {loader : Prop} {w w' w'' : FsWorld} {own : List FsClosure} {k : FsClosure}

theorem Frame.caller_eq (h : Frame w w' own) (hk : k ∉ own) : caller w' k = caller w k := by
  obtain ⟨cb, p⟩ := k
  cases cb with
  | fsSeekStep => rw [caller, caller, h.seeks p hk]
  | fsOpenStep | fsReadStep | elfStep | client => rfl

theorem Frame.ctxOk (h : Frame w w' own) (hk : k ∉ own) (hok : CtxOk loader w k) :
    CtxOk loader w' k := by
  obtain ⟨cb, p⟩ := k
  cases cb with
  | fsOpenStep => rwa [CtxOk, h.opens p hk]
  | fsReadStep => rwa [CtxOk, h.reads p hk]
  | fsSeekStep => rwa [CtxOk, h.seeks p hk]
  | elfStep | client => trivial

theorem Frame.mono {own' : List FsClosure} (h : Frame w w' own) (hsub : own ⊆ own') :
    Frame w w' own' :=
  ⟨fun p hp => h.opens p fun hc => hp (hsub hc), fun p hp => h.reads p fun hc => hp (hsub hc),
    fun p hp => h.seeks p fun hc => hp (hsub hc)⟩

theorem Frame.trans (h : Frame w w' own) (h' : Frame w' w'' own) : Frame w w'' own :=
  ⟨fun p hp => (h'.opens p hp).trans (h.opens p hp), fun p hp => (h'.reads p hp).trans (h.reads p hp),
    fun p hp => (h'.seeks p hp).trans (h.seeks p hp)⟩

theorem Frame.refl : Frame w w own := ⟨fun _ _ => rfl, fun _ _ => rfl, fun _ _ => rfl⟩

theorem frame_setOpenCtx {p : Ptr} {c : FsOpenCtx} :
    Frame w (w.setOpenCtx p c) [(.fsOpenStep, p)] :=
  ⟨fun q hq => Function.update_of_ne (fun heq => hq (by simp [heq])) _ _, fun _ _ => rfl,
    fun _ _ => rfl⟩

theorem frame_setReadCtx {p : Ptr} {c : FsReadCtx} :
    Frame w (w.setReadCtx p c) [(.fsReadStep, p)] :=
  ⟨fun _ _ => rfl, fun q hq => Function.update_of_ne (fun heq => hq (by simp [heq])) _ _,
    fun _ _ => rfl⟩

theorem frame_setSeekCtx {p : Ptr} {c : FsSeekCtx} :
    Frame w (w.setSeekCtx p c) [(.fsSeekStep, p)] :=
  ⟨fun _ _ => rfl, fun _ _ => rfl,
    fun q hq => Function.update_of_ne (fun heq => hq (by simp [heq])) _ _⟩

end Frame

/-- What follows the release of a context: its callback is invoked; or, in an open, the context is
looked at once more; or it is looked at, released a second time, and the callback invoked. -/
inductive Closing (k : FsClosure) : List FsEffect → Prop
  | clean : Closing k [complete k]
  | silent (h : k.1 = .fsOpenStep) : Closing k [access k.2]
  | twice (h : k.1 = .fsOpenStep) : Closing k [access k.2, free k.2, complete k]

/-- **What a step function can do**, from `w` to `w'` in the operation `k`. -/
inductive Move (loader : Prop) (w w' : FsWorld) (k : FsClosure) : List FsEffect → FsAction → Prop
  /-- It asks for a sector. -/
  | again {l : List FsEffect} {lba : Word} (ht : Touches k.2 l) (hf : Frame w w' [k])
      (hok : CtxOk loader w' k) (hc : caller w' k = caller w k) : Move loader w w' k l (.post lba k)
  /-- It is called again at once. -/
  | retry {l : List FsEffect} {status : Int} (ht : Touches k.2 l) (hf : Frame w w' [k])
      (hok : CtxOk loader w' k) (hc : caller w' k = caller w k) :
      Move loader w w' k l (.call k status)
  /-- It starts a seek that will call it. -/
  | delegate {l l' : List FsEffect} {j : FsClosure} {lba : Word} (ht : Touches k.2 l)
      (ht' : Touches j.2 l') (hj : j.2 = w.kmallocs 0) (hop : j.1.isOp)
      (hf : Frame w w' [k, j]) (hok : CtxOk loader w' k) (hc : caller w' k = caller w k)
      (hok' : CtxOk loader w' j) (hc' : caller w' j = some k) :
      Move loader w w' k (l ++ allocCtx j.1 j.2 :: l') (.post lba j)
  /-- It completes, and calls its caller. -/
  | finish {l l' : List FsEffect} {c : FsClosure} {status : Int} (ht : Touches k.2 l)
      (hf : Frame w w' [k]) (hclose : Closing k l')
      (hc : ∀ c' : FsClosure, c'.1.isOp → (caller w k = some c' ↔ c = c'))
      (hkind : c.1.isOp ∨ c.1 = .client ∨ (loader ∧ c.1 = .elfStep ∧ k.1 = .fsOpenStep)) :
      Move loader w w' k (l ++ free k.2 :: l') (.call c status)
  /-- It completes, and there is nobody to call. -/
  | quit {l l' : List FsEffect} (ht : Touches k.2 l) (hf : Frame w w' [k])
      (hclose : Closing k l') (hc : caller w k = none) :
      Move loader w w' k (l ++ free k.2 :: l') .stop

/-- **What a call by a client can do.** -/
inductive Start (loader : Prop) (op : FsOp) (w w' : FsWorld) : List FsEffect → FsAction → Prop
  /-- A new operation asks for a sector. -/
  | posted {l : List FsEffect} {k : FsClosure} {lba : Word} (ht : Touches k.2 l)
      (hk : k.2 = w.kmallocs 0) (hop : k.1.isOp) (hf : Frame w w' [k]) (hok : CtxOk loader w' k)
      (hc : ∀ c, caller w' k = some c → c.1 = .client) :
      Start loader op w w' (allocCtx k.1 k.2 :: l) (.post lba k)
  /-- The operation is over at once. -/
  | called {c : FsClosure} {status : Int} (hf : Frame w w' []) (hc : c.1 = .client) :
      Start loader op w w' [] (.call c status)
  /-- A file structure is made. -/
  | made (hf : Frame w w' []) : Start loader op w w' [.heap (.alloc .file (w.kmallocs 0))] .stop
  /-- A file is closed. -/
  | closed {file ctx : Ptr} {c : FsClosure} {status : Int} (hop : op = .close file ctx)
      (hf : Frame w w' []) (hc : c.1 = .client) :
      Start loader op w w' [free file] (.call c status)
  /-- A program is loaded. -/
  | loaded {lba : Word} (hl : loader) (hf : Frame w w' [(.fsOpenStep, w.kmallocs 1)])
      (hok : CtxOk loader w' (.fsOpenStep, w.kmallocs 1)) :
      Start loader op w w' [allocCtx .elfStep (w.kmallocs 0), access (w.kmallocs 0),
        allocCtx .fsOpenStep (w.kmallocs 1), access (w.kmallocs 1)]
        (.post lba (.fsOpenStep, w.kmallocs 1))

section Code

variable {loader : Prop} {d : FatDriver} {rx : Sector} {w : FsWorld} {ctx : Ptr} {status : Int}

theorem touches_access : Touches ctx [access ctx] := by simp [Touches]

theorem touches_access_fat {c : Word} : Touches ctx [access ctx, fatLba c] := by simp [Touches]

theorem touches_access_access : Touches ctx [access ctx, access ctx] := by simp [Touches]

/-! ## Seeks -/

/-- **Seeking** is over at once, or has a context and asks for a sector of the table. -/
theorem fsSeekSubmit_spec (d : FatDriver) (file : Ptr) (target : Word) (onComplete : FsCallback)
    (callerCtx : Ptr) (w : FsWorld) :
    let r := fsSeekSubmit d file target onComplete callerCtx w
    let es := fsSeekSubmitEffects d file target w
    (es = [] ∧ (∃ status, r.2 = .call (onComplete, callerCtx) status) ∧ Frame w r.1 []) ∨
      (∃ c lba, es = [allocCtx .fsSeekStep (w.kmallocs 0), access (w.kmallocs 0), fatLba c] ∧
        r.2 = .post lba (.fsSeekStep, w.kmallocs 0) ∧ Frame w r.1 [(.fsSeekStep, w.kmallocs 0)] ∧
        (r.1.seekCtx (w.kmallocs 0)).onComplete = onComplete ∧
        (r.1.seekCtx (w.kmallocs 0)).callerCtx = callerCtx) := by
  dsimp only
  rw [fsSeekSubmit, fsSeekSubmitEffects]
  by_cases hbound : (w.file file).fileSize < target
  · exact Or.inl ⟨if_pos hbound, ⟨-1, by rw [if_pos hbound]⟩, by rw [if_pos hbound]; exact .refl⟩
  · simp only [if_neg hbound]
    have hskip : (seekStart d (w.file file) target).2 =
        (seekDecompose d target).clusterIndex -
          (if (seekDecompose d (w.file file).fileOffset).clusterIndex ≤
            (seekDecompose d target).clusterIndex
          then (seekDecompose d (w.file file).fileOffset).clusterIndex else 0) := by
      rw [seekStart]
      split <;> simp_all
    rw [← hskip]
    by_cases hzero : (seekStart d (w.file file) target).2 = 0
    · rw [if_pos hzero, if_pos hzero]
      exact Or.inl ⟨rfl, ⟨0, rfl⟩, fun _ _ => rfl, fun _ _ => rfl, fun _ _ => rfl⟩
    · rw [if_neg hzero, if_neg hzero]
      refine Or.inr ⟨_, _, rfl, rfl, ?_, ?_, ?_⟩
      · exact ⟨fun _ _ => rfl, fun _ _ => rfl, frame_setSeekCtx.seeks⟩
      · simp [FsWorld.setSeekCtx, FsWorld.kmalloc]
      · simp [FsWorld.setSeekCtx, FsWorld.kmalloc]

theorem fsSeekWhence_spec (d : FatDriver) (file : Ptr) (offset : Word) (whence : Option SeekWhence)
    (onComplete : FsCallback) (callerCtx : Ptr) (w : FsWorld) :
    let r := fsSeekWhence d file offset whence onComplete callerCtx w
    let es := fsSeekWhenceEffects d file offset whence w
    (es = [] ∧ (∃ status, r.2 = .call (onComplete, callerCtx) status) ∧ Frame w r.1 []) ∨
      (∃ c lba, es = [allocCtx .fsSeekStep (w.kmallocs 0), access (w.kmallocs 0), fatLba c] ∧
        r.2 = .post lba (.fsSeekStep, w.kmallocs 0) ∧ Frame w r.1 [(.fsSeekStep, w.kmallocs 0)] ∧
        (r.1.seekCtx (w.kmallocs 0)).onComplete = onComplete ∧
        (r.1.seekCtx (w.kmallocs 0)).callerCtx = callerCtx) := by
  dsimp only
  rw [fsSeekWhence, fsSeekWhenceEffects]
  cases seekTarget (w.file file) offset whence with
  | none => exact Or.inl ⟨rfl, ⟨-1, rfl⟩, .refl⟩
  | some target => exact fsSeekSubmit_spec d file target onComplete callerCtx w

/-- A seek completes. -/
theorem fsSeekFinish_move {w' : FsWorld} (hok : CtxOk loader w (.fsSeekStep, ctx))
    (hf : Frame w w' [(.fsSeekStep, ctx)])
    (hc : caller w' (.fsSeekStep, ctx) = caller w (.fsSeekStep, ctx)) :
    Move loader w (fsSeekFinish ctx w').1 (.fsSeekStep, ctx) (access ctx :: fsSeekFinishEffects ctx)
      (fsSeekFinish ctx w').2 := by
  refine .finish (l := [access ctx, access ctx]) touches_access_access hf .clean (fun c' _ => ?_) ?_
  · rw [← hc, caller]
    exact Option.some_inj
  · rw [caller, caller, Option.some_inj] at hc
    obtain ⟨hcb, -⟩ := Prod.mk.inj hc
    rcases hok with hclient | hread
    · exact Or.inr (Or.inl (hcb.trans hclient))
    · exact Or.inl (by rw [show (w'.seekCtx ctx).onComplete = .fsReadStep from hcb.trans hread]; rfl)

/-- Storing to a seek's context anything but a new caller. -/
theorem caller_setSeekCtx {c : FsSeekCtx} (hcb : c.onComplete = (w.seekCtx ctx).onComplete)
    (hctx : c.callerCtx = (w.seekCtx ctx).callerCtx) :
    caller (w.setSeekCtx ctx c) (.fsSeekStep, ctx) = caller w (.fsSeekStep, ctx) := by
  simp only [caller, FsWorld.setSeekCtx, Function.update_self, hcb, hctx]

/-- **The step of a seek.** -/
theorem fsSeekStep_move (hok : CtxOk loader w (.fsSeekStep, ctx)) :
    Move loader w (fsSeekStep d rx ctx status w).1 (.fsSeekStep, ctx)
      (fsSeekStepEffects d rx ctx status w) (fsSeekStep d rx ctx status w).2 := by
  rw [fsSeekStep, fsSeekStepEffects]
  by_cases hstatus : status ≠ 0
  · rw [if_pos hstatus, if_pos hstatus]
    exact fsSeekFinish_move hok frame_setSeekCtx (caller_setSeekCtx rfl rfl)
  · rw [if_neg hstatus, if_neg hstatus]
    by_cases hend : EndOfChain (d.getNextCluster rx (w.seekCtx ctx).currentCluster)
    · simp only [if_pos hend]
      exact fsSeekFinish_move hok frame_setSeekCtx (caller_setSeekCtx rfl rfl)
    · simp only [if_neg hend]
      by_cases hzero : (w.seekCtx ctx).clustersRemaining - 1 = 0
      · rw [if_pos hzero, if_pos hzero]
        -- the file is set as well
        refine fsSeekFinish_move hok ?_ ?_
        · exact ⟨fun _ _ => rfl, fun _ _ => rfl, frame_setSeekCtx.seeks⟩
        · simp only [caller, FsWorld.setSeekCtx, FsWorld.setFile, Function.update_self]
      · rw [if_neg hzero, if_neg hzero]
        refine .again touches_access_fat frame_setSeekCtx ?_ (caller_setSeekCtx rfl rfl)
        simpa only [CtxOk, FsWorld.setSeekCtx, Function.update_self] using hok

/-! ## Reads -/

/-- A read completes. -/
theorem fsReadFinish_move {w' : FsWorld} (hok : CtxOk loader w (.fsReadStep, ctx))
    (hf : Frame w w' [(.fsReadStep, ctx)])
    (hcb : (w'.readCtx ctx).callback = (w.readCtx ctx).callback) :
    Move loader w (fsReadFinish ctx w').1 (.fsReadStep, ctx) (access ctx :: fsReadFinishEffects ctx)
      (fsReadFinish ctx w').2 := by
  have hclient : (w'.readCtx ctx).callback = .client := hcb.trans hok.2
  refine .finish (l := [access ctx, access ctx]) touches_access_access hf .clean (fun c' hop => ?_) ?_
  · refine ⟨nofun, ?_⟩
    rintro rfl
    rw [hclient] at hop
    exact absurd hop Bool.false_ne_true
  · exact Or.inr (Or.inl hclient)

/-- Storing to a read's context anything but a new client, with the state one to go on from. -/
theorem ctxOk_setReadCtx {c : FsReadCtx} {w' : FsWorld} (hok : CtxOk loader w (.fsReadStep, ctx))
    (hcb : c.callback = (w.readCtx ctx).callback)
    (hstate : c.state = .loadContents ∨ c.state = .copyContents) :
    CtxOk loader (w'.setReadCtx ctx c) (.fsReadStep, ctx) := by
  simp only [CtxOk, FsWorld.setReadCtx, Function.update_self]
  exact ⟨hstate, hcb.trans hok.2⟩

/-- **The step of a read.** -/
theorem fsReadStep_move (hok : CtxOk loader w (.fsReadStep, ctx)) :
    Move loader w (fsReadStep d rx ctx status w).1 (.fsReadStep, ctx)
      (fsReadStepEffects d ctx status w) (fsReadStep d rx ctx status w).2 := by
  rw [fsReadStep, fsReadStepEffects]
  by_cases hstatus : status ≠ 0
  · rw [if_pos hstatus, if_pos hstatus]
    refine fsReadFinish_move hok frame_setReadCtx ?_
    simp only [FsWorld.setReadCtx, Function.update_self]
  rw [if_neg hstatus, if_neg hstatus]
  rcases hok.1 with hload | hcopy
  · simp only [hload]
    exact .again touches_access frame_setReadCtx (ctxOk_setReadCtx hok rfl (Or.inr rfl)) rfl
  · simp only [hcopy]
    generalize hn : (if 512 ≤ ((w.file (w.readCtx ctx).file).currentByte +
        (w.readCtx ctx).bytesRemaining : Word) then 512 - (w.file (w.readCtx ctx).file).currentByte
      else (w.readCtx ctx).bytesRemaining) = n
    by_cases hzero : (w.readCtx ctx).bytesRemaining - n = 0
    · rw [if_pos hzero, if_pos hzero]
      refine fsReadFinish_move hok ?_ ?_
      · exact ⟨fun _ _ => rfl, frame_setReadCtx.reads, fun _ _ => rfl⟩
      · simp only [FsWorld.setReadCtx, Function.update_self]
    · rw [if_neg hzero, if_neg hzero]
      -- the seek sees the world with the sector copied and the context on its way
      generalize hw' : FsWorld.setReadCtx _ ctx _ = w'
      have hf : Frame w w' [(.fsReadStep, ctx)] := by
        rw [← hw']
        exact ⟨fun _ _ => rfl, frame_setReadCtx.reads, fun _ _ => rfl⟩
      have hok' : CtxOk loader w' (.fsReadStep, ctx) := by
        rw [← hw']
        exact ctxOk_setReadCtx hok rfl (Or.inl rfl)
      have heff : fsSeekWhenceEffects d (w.readCtx ctx).file n (some .cur) w =
          fsSeekWhenceEffects d (w.readCtx ctx).file n (some .cur) w' := by
        rw [← hw']
        rfl
      have hm : w'.kmallocs = w.kmallocs := by rw [← hw']; rfl
      rw [heff]
      rcases fsSeekWhence_spec d (w.readCtx ctx).file n (some .cur) .fsReadStep ctx w' with
        ⟨hes, ⟨st, hact⟩, hf'⟩ | ⟨c, lba, hes, hact, hf', hcb, hctx⟩
      · rw [hes, hact]
        exact .retry touches_access (hf.trans (hf'.mono (by simp)))
          (hf'.ctxOk (by simp) hok') rfl
      · rw [hes, hact, hm]
        rw [hm] at hf' hcb hctx
        refine .delegate (j := (.fsSeekStep, w.kmallocs 0)) touches_access touches_access_fat rfl rfl
          ((hf.mono (by simp)).trans (hf'.mono (by simp))) (hf'.ctxOk (by simp) hok') rfl
          (Or.inr hcb) ?_
        simp only [caller, hcb, hctx]

/-! ## Opens -/

/-- An open completes. -/
theorem fsOpenFinish_move {w' : FsWorld} (hok : CtxOk loader w (.fsOpenStep, ctx))
    (hf : Frame w w' [(.fsOpenStep, ctx)])
    (hcb : (w'.openCtx ctx).onComplete = (w.openCtx ctx).onComplete)
    (hproc : (w'.openCtx ctx).procId = (w.openCtx ctx).procId) :
    Move loader w (fsOpenFinish ctx w').1 (.fsOpenStep, ctx) (access ctx :: fsOpenFinishEffects ctx w)
      (fsOpenFinish ctx w').2 := by
  rw [fsOpenFinish, fsOpenFinishEffects, hproc, hcb]
  by_cases hp : (w.openCtx ctx).procId ≠ 0
  · rw [if_pos hp, if_pos hp]
    exact .quit (l := [access ctx, access ctx]) touches_access_access
      ⟨hf.opens, hf.reads, hf.seeks⟩ (.silent rfl) rfl
  · rw [if_neg hp, if_neg hp]
    cases hon : (w.openCtx ctx).onComplete with
    | none =>
      exact .quit (l := [access ctx, access ctx]) touches_access_access hf (.silent rfl) rfl
    | some cb =>
      have hkind := hok.2 cb hon
      refine .finish (l := [access ctx, access ctx]) touches_access_access hf (.twice rfl)
        (fun c' hop => ⟨nofun, ?_⟩) ?_
      · rintro rfl
        rcases hkind with rfl | ⟨-, rfl⟩ <;> exact absurd hop Bool.false_ne_true
      · rcases hkind with rfl | ⟨hl, rfl⟩
        · exact Or.inr (Or.inl rfl)
        · exact Or.inr (Or.inr ⟨hl, rfl, rfl⟩)

/-- Storing to an open's context anything but a new caller, with the state one to go on from. -/
theorem ctxOk_setOpenCtx {c : FsOpenCtx} {w' : FsWorld} (hok : CtxOk loader w (.fsOpenStep, ctx))
    (hcb : c.onComplete = (w.openCtx ctx).onComplete)
    (hstate : c.state = .parseDirSector ∨ c.state = .processFat) :
    CtxOk loader (w'.setOpenCtx ctx c) (.fsOpenStep, ctx) := by
  simp only [CtxOk, FsWorld.setOpenCtx, Function.update_self, hcb]
  exact ⟨hstate, hok.2⟩

/-- An open asks for another sector. -/
theorem fsOpenPostIo_move {w' : FsWorld} {lba : Word} {next : FsOpenState} {es : List FsEffect}
    (hok : CtxOk loader w (.fsOpenStep, ctx)) (hf : Frame w w' [(.fsOpenStep, ctx)])
    (hcb : (w'.openCtx ctx).onComplete = (w.openCtx ctx).onComplete)
    (hstate : next = .parseDirSector ∨ next = .processFat) (ht : Touches ctx es) :
    Move loader w (fsOpenPostIo ctx lba next w').1 (.fsOpenStep, ctx) es
      (fsOpenPostIo ctx lba next w').2 :=
  .again ht (hf.trans frame_setOpenCtx) (ctxOk_setOpenCtx hok hcb hstate) rfl

/-- **The step of an open.** -/
theorem fsOpenStep_move (hok : CtxOk loader w (.fsOpenStep, ctx)) :
    Move loader w (fsOpenStep d rx ctx status w).1 (.fsOpenStep, ctx)
      (fsOpenStepEffects d rx ctx status w) (fsOpenStep d rx ctx status w).2 := by
  have hfinish : ∀ {c : FsOpenCtx}, c.onComplete = (w.openCtx ctx).onComplete →
      c.procId = (w.openCtx ctx).procId →
      Move loader w (fsOpenFinish ctx (w.setOpenCtx ctx c)).1 (.fsOpenStep, ctx)
        (access ctx :: fsOpenFinishEffects ctx w) (fsOpenFinish ctx (w.setOpenCtx ctx c)).2 := by
    intro c hcb hproc
    exact fsOpenFinish_move hok frame_setOpenCtx (by rw [setOpenCtx_openCtx, hcb])
      (by rw [setOpenCtx_openCtx, hproc])
  rw [fsOpenStep, fsOpenStepEffects]
  by_cases hstatus : status ≠ 0
  · rw [if_pos hstatus, if_pos hstatus]
    exact hfinish rfl rfl
  rw [if_neg hstatus, if_neg hstatus]
  rcases hok.1 with hparse | hfat
  · simp only [hparse]
    cases hscan : scanDir rx (w.openCtx ctx).walker.component83 entriesPerSector 0 with
    | endOfDir => exact hfinish rfl rfl
    | found e =>
      dsimp only
      by_cases hnext : (!pathWalkerHasNext (w.openCtx ctx).walker) = true
      · rw [if_pos hnext, if_pos hnext]
        -- the file is filled in as well
        refine fsOpenFinish_move hok ⟨frame_setOpenCtx.opens, fun _ _ => rfl, fun _ _ => rfl⟩ ?_ ?_
        · rw [setOpenCtx_openCtx]
        · rw [setOpenCtx_openCtx]
      · rw [if_neg hnext, if_neg hnext]
        rw [storeParentCluster_eq]
        refine fsOpenPostIo_move hok ⟨frame_setOpenCtx.opens, fun _ _ => rfl, fun _ _ => rfl⟩ ?_
          (Or.inl rfl) touches_access
        rw [setOpenCtx_openCtx]
    | noMatch =>
      dsimp only
      split
      · exact fsOpenPostIo_move hok frame_setOpenCtx (by rw [setOpenCtx_openCtx]) (Or.inr rfl)
          touches_access_fat
      · exact fsOpenPostIo_move hok frame_setOpenCtx (by rw [setOpenCtx_openCtx]) (Or.inl rfl)
          touches_access
  · simp only [hfat]
    by_cases hend : EndOfChain (d.getNextCluster rx (w.openCtx ctx).currentCluster)
    · rw [if_pos hend, if_pos hend]
      exact hfinish rfl rfl
    · rw [if_neg hend, if_neg hend]
      exact fsOpenPostIo_move hok frame_setOpenCtx (by rw [setOpenCtx_openCtx]) (Or.inl rfl)
        touches_access

/-- **Every step of an operation is a move.** -/
theorem fsCode_move {k : FsClosure} (hop : k.1.isOp) (hok : CtxOk loader w k) :
    Move loader w (fsCode d rx k status w).1 k (fsCodeEffects d rx k status w)
      (fsCode d rx k status w).2 := by
  obtain ⟨cb, ctx⟩ := k
  cases cb with
  | fsOpenStep => exact fsOpenStep_move hok
  | fsReadStep => exact fsReadStep_move hok
  | fsSeekStep => exact fsSeekStep_move hok
  | elfStep | client => exact absurd hop Bool.false_ne_true

/-! ## Starts -/

/-- The context of an open, as `fs_open_submit_with_dir_parent` leaves it. -/
theorem fsOpenSubmit_spec (d : FatDriver) (path : List Byte) (outFile : Ptr) (procId : Byte)
    (callback : Option FsCallback) (callerCtx storage : Ptr) (w : FsWorld) :
    let r := fsOpenSubmitWithDirParent d path outFile procId callback callerCtx storage w
    (∃ lba, r.2 = .post lba (.fsOpenStep, w.kmallocs 0)) ∧
      Frame w r.1 [(.fsOpenStep, w.kmallocs 0)] ∧
      (r.1.openCtx (w.kmallocs 0)).state = .parseDirSector ∧
      (r.1.openCtx (w.kmallocs 0)).onComplete = callback := by
  dsimp only
  rw [fsOpenSubmitWithDirParent]
  dsimp only [FsWorld.kmalloc]
  generalize hw₁ : setInitialDir d (w.kmallocs 0) _ = w₁
  have hopens : ∀ p, p ≠ w.kmallocs 0 → w₁.openCtx p = w.openCtx p := by
    intro p hp
    rw [← hw₁, setInitialDir, storeParentCluster_eq]
    simp [FsWorld.setOpenCtx, Function.update_of_ne hp]
  have hreads : w₁.readCtx = w.readCtx := by
    rw [← hw₁, setInitialDir, storeParentCluster_eq]
    rfl
  have hseeks : w₁.seekCtx = w.seekCtx := by
    rw [← hw₁, setInitialDir, storeParentCluster_eq]
    rfl
  have hcb : (w₁.openCtx (w.kmallocs 0)).onComplete = callback := by
    rw [← hw₁, setInitialDir, storeParentCluster_eq]
    simp [FsWorld.setOpenCtx]
  refine ⟨⟨_, rfl⟩, ⟨fun p hp => ?_, fun p _ => ?_, fun p _ => ?_⟩, ?_, ?_⟩
  · have hne : p ≠ w.kmallocs 0 := fun heq => hp (by simp [heq])
    simp [fsOpenPostIo, FsWorld.setOpenCtx, Function.update_of_ne hne, hopens p hne]
  · simp [fsOpenPostIo, FsWorld.setOpenCtx, hreads]
  · simp [fsOpenPostIo, FsWorld.setOpenCtx, hseeks]
  · simp [fsOpenPostIo, FsWorld.setOpenCtx]
  · simp [fsOpenPostIo, FsWorld.setOpenCtx, hcb]

/-- **Every call by a client is a start.** -/
theorem fsOp_start (op : FsOp) (hl : (∃ path pcb, op = .load path pcb) → loader) :
    Start loader op w (fsOpCode d op w).1 (fsOpEffects d op w) (fsOpCode d op w).2 := by
  cases op with
  | «open» path outFile procId notify ctx storage =>
    obtain ⟨⟨lba, hact⟩, hf, hstate, hcb⟩ := fsOpenSubmit_spec d path outFile procId
      (if notify then some .client else none) ctx storage w
    dsimp only [fsOpCode, fsOpEffects]
    rw [hact]
    refine .posted (k := (.fsOpenStep, w.kmallocs 0)) touches_access rfl rfl hf ⟨Or.inl hstate, ?_⟩
      nofun
    intro cb hon
    rw [hcb] at hon
    cases notify with
    | false => exact absurd hon (by simp)
    | true => exact Or.inl (Option.some.inj hon).symm
  | seek file offset whence ctx =>
    dsimp only [fsOpCode, fsOpEffects]
    rcases fsSeekWhence_spec d file offset whence .client ctx w with
      ⟨hes, ⟨st, hact⟩, hf⟩ | ⟨c, lba, hes, hact, hf, hcb, hctx⟩
    · rw [hes, hact]
      exact .called hf rfl
    · rw [hes, hact]
      refine .posted (k := (.fsSeekStep, w.kmallocs 0)) touches_access_fat rfl rfl hf (Or.inl hcb) ?_
      rintro c' hc'
      rw [caller, Option.some_inj] at hc'
      rw [← hc']
      exact hcb
  | read file buffer bytes ctx =>
    refine .posted (k := (.fsReadStep, w.kmallocs 0)) touches_access rfl rfl ?_ ?_ nofun
    · refine ⟨fun _ _ => rfl, fun p hp => ?_, fun _ _ => rfl⟩
      have hne : p ≠ w.kmallocs 0 := fun heq => hp (by simp [heq])
      simp [fsOpCode, fsReadSubmit, fsReadPostIo, FsWorld.setReadCtx, FsWorld.kmalloc,
        Function.update_of_ne hne]
    · simp [fsOpCode, fsReadSubmit, fsReadPostIo, FsWorld.setReadCtx, FsWorld.kmalloc, CtxOk]
  | makeFile => exact .made .refl
  | close file ctx => exact .closed rfl .refl rfl
  | load path pcb =>
    dsimp only [fsOpCode, fsOpEffects, elfLoadSubmit, FsWorld.kmalloc]
    generalize hw₁ : FsWorld.setElfCtx _ _ _ = w₁
    have hm : w₁.kmallocs 0 = w.kmallocs 1 := by rw [← hw₁]; rfl
    have hf₁ : Frame w w₁ [] := by
      rw [← hw₁]
      exact ⟨fun _ _ => rfl, fun _ _ => rfl, fun _ _ => rfl⟩
    obtain ⟨⟨lba, hact⟩, hf, hstate, hcb⟩ := fsOpenSubmit_spec d path (elfFile (w.kmallocs 0)) 0
      (some .elfStep) (w.kmallocs 0) (elfParentDirCluster (w.kmallocs 0)) w₁
    rw [hm] at hact hf hstate hcb
    have hloader := hl ⟨path, pcb, rfl⟩
    rw [hact]
    refine .loaded hloader ((hf₁.mono (by simp)).trans hf)
      ⟨Or.inl hstate, fun cb hon => Or.inr ⟨hloader, ?_⟩⟩
    rw [hcb] at hon
    exact (Option.some.inj hon).symm

end Code

end RiscyOS
