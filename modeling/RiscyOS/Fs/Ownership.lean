import RiscyOS.Fs.Continuations

/-!
# Who continues an operation, and who frees its context

Two results about every run of the file system, over any card.

`fs_one_continuation`: an open, read or seek that is under way has exactly one thing that will
continue it, is reported to its client at most once, and after that nothing in the scheduler's hands
refers to its context.  Clients are anything that calls the file system and is called back; the
loader is one of them.

`fs_heap_discipline_iff`: as long as no open completes, every pointer given to `kfree` is one that is
in use and no context is looked at after it has been freed; and the completion of an open, whenever
it comes, does both.  `fs_open_finish` frees the context first, and then looks into it for the process
to wake and for the callback, before which it frees it once more.
-/

set_option autoImplicit false

namespace RiscyOS

open Memory FsEffect

section Ownership

variable {loader : Prop} {info : FsRunningInfo} {getNextCluster : Sector → Word → Word}
  {disk : Word → Sector} {s s' : FsSys} {rs ds : List FsClosure} {k : FsClosure} {a : Supply}
  {w' : FsWorld}

/-! ## One continuation -/

/-- No program is loaded: the events are those of clients that open, read, seek and close. -/
def NotLoad (e : FsEvent) (_ : FsSys) : Prop :=
  ∀ path pcb a r1 resp, e ≠ .start (.load path pcb) a r1 resp

theorem Move.not_elf {w : FsWorld} {es : List FsEffect} {c : FsClosure} {status : Int}
    (hop : k.1.isOp) (hm : Move False w w' k es (.call c status)) : c.1 ≠ .elfStep := by
  intro heq
  cases hm with
  | retry =>
    rw [heq] at hop
    exact absurd hop Bool.false_ne_true
  | finish _ _ _ _ hkind =>
    rcases hkind with hc | hc | ⟨hl, -⟩
    · rw [heq] at hc
      exact absurd hc Bool.false_ne_true
    · exact absurd (heq.symm.trans hc) (by decide)
    · exact hl

theorem Start.not_elf {w : FsWorld} {op : FsOp} {es : List FsEffect} {c : FsClosure} {status : Int}
    (hm : Start loader op w w' es (.call c status)) : c.1 ≠ .elfStep := by
  cases hm with
  | called _ hc => rw [hc]; decide
  | closed _ _ hc => rw [hc]; decide

/-- A run without loads never calls a loader. -/
theorem FsInv.noLoaderCalled {e : FsEvent} (h : FsInv False s rs s.dues) (hP : NotLoad e s) :
    NoLoaderCalled info getNextCluster e s := by
  intro run hcode c status hact
  rcases h.code_cases (fun path pcb a r1 resp heq => hP path pcb a r1 resp heq) hcode with
    ⟨op, a, r1, resp, -, hm⟩ | ⟨a, r1, resp, k, st, -, -, -, hop, -, hm⟩ | ⟨a, r1, resp, ctx, st, -, -, rfl⟩
  · rw [hact] at hm
    exact hm.not_elf
  · rw [hact] at hm
    exact hm.not_elf hop
  · exact absurd hact (by simp)

theorem FsReach.inv (h : FsReach info getNextCluster disk NotLoad s) :
    ∃ rs, FsInv False s rs s.dues := by
  induction h with
  | init w ring req rx => exact ⟨[], .init False w ring req rx⟩
  | @step s s' e _ hP hs ih =>
    obtain ⟨rs, ih⟩ := ih
    exact ih.step (fun path pcb a r1 resp heq => hP path pcb a r1 resp heq) (ih.noLoaderCalled hP) hs

/-- The closures in the scheduler's hands, with `q` its queue. -/
def FsSys.requests (s : FsSys) (q : List Ptr) : List FsClosure :=
  (s.io.unanswered q).map fun p => (s.io.req p).closure

/-- The step of an open, if it is called with this status, completes it: there is an error, the
directory ends, the last component is found, or the directory's chain of clusters ends. -/
def OpenFinishes (getNextCluster : Sector → Word → Word) (rx : Sector) (ctx : Ptr) (status : Int)
    (w : FsWorld) : Prop :=
  let c := w.openCtx ctx
  status ≠ 0 ∨
    (c.state = .parseDirSector ∧
      match scanDir rx c.walker.component83 entriesPerSector 0 with
      | .endOfDir => True
      | .found _ => pathWalkerHasNext c.walker = false
      | .noMatch => False) ∨
    (c.state = .processFat ∧ EndOfChain (getNextCluster rx c.currentCluster))

/-- The event completes an open. -/
def CompletesOpen (getNextCluster : Sector → Word → Word) (e : FsEvent) (s : FsSys) : Prop :=
  ∃ a r1 resp ctx status, e = .call a r1 resp ∧ s.due = some ((.fsOpenStep, ctx), status) ∧
    OpenFinishes getNextCluster s.buffer ctx status s.world

section OpenEffects

variable {d : FatDriver} {rx : Sector} {ctx : Ptr} {status : Int} {w : FsWorld}

/-- An open that completes does what `fs_open_finish` does. -/
theorem fsOpenStepEffects_of_finishes (h : OpenFinishes d.getNextCluster rx ctx status w) :
    fsOpenStepEffects d rx ctx status w = access ctx :: fsOpenFinishEffects ctx w := by
  rw [fsOpenStepEffects]
  by_cases hstatus : status ≠ 0
  · rw [if_pos hstatus]
  · rw [if_neg hstatus]
    rcases h with h | ⟨hstate, hscan⟩ | ⟨hstate, hend⟩
    · exact absurd h hstatus
    · simp only [hstate]
      cases hs : scanDir rx (w.openCtx ctx).walker.component83 entriesPerSector 0 with
      | endOfDir => rfl
      | found e =>
        rw [hs] at hscan
        simp only [hscan, Bool.not_false, if_true]
      | noMatch =>
        rw [hs] at hscan
        exact hscan.elim
    · simp only [hstate]
      rw [if_pos hend]

/-- An open that goes on only looks at its context. -/
theorem touches_of_not_finishes (h : ¬ OpenFinishes d.getNextCluster rx ctx status w) :
    Touches ctx (fsOpenStepEffects d rx ctx status w) := by
  rw [OpenFinishes, not_or, not_or] at h
  obtain ⟨hstatus, hparse, hfat⟩ := h
  rw [fsOpenStepEffects, if_neg hstatus]
  cases hstate : (w.openCtx ctx).state with
  | parseDirSector =>
    have hscan := fun hc => hparse ⟨hstate, hc⟩
    dsimp only
    cases hs : scanDir rx (w.openCtx ctx).walker.component83 entriesPerSector 0 with
    | endOfDir =>
      rw [hs] at hscan
      exact absurd trivial hscan
    | found e =>
      rw [hs] at hscan
      simp only [Bool.eq_true_of_not_eq_false hscan, Bool.not_true, Bool.false_eq_true, if_false]
      exact touches_access
    | noMatch =>
      dsimp only
      split
      · exact touches_access_fat
      · exact touches_access
  | processFat =>
    dsimp only
    rw [if_neg fun hc => hfat ⟨hstate, hc⟩]
    exact touches_access
  | done | notFound | error => exact touches_access

/-- A fault is never struck out. -/
theorem faults_foldl_ne_nil : ∀ (es : List FsEffect) (L : Ledger BlockKind Ptr), L.faults ≠ [] →
    (es.foldl applyHeap L).faults ≠ []
  | [], _, h => h
  | e :: es, L, h => by
    refine faults_foldl_ne_nil es (applyHeap L e) ?_
    cases e with
    | heap op =>
      cases op with
      | alloc t q => exact h
      | free q | access q =>
        simp only [applyHeap, Ledger.apply]
        split
        · exact h
        · simp
    | complete j => exact h
    | fatLba c => exact h

/-- **Completing an open** looks at a context that has been freed. -/
theorem faults_of_finish {L : Ledger BlockKind Ptr} (hlive : L.Live ctx) :
    ((access ctx :: fsOpenFinishEffects ctx w).foldl applyHeap L).faults ≠ [] := by
  have hsame : L.apply (.access ctx) = L := (L.faults_of_live hlive).2
  have hdead : ¬ (L.apply (.free ctx)).Live ctx := fun hc => by
    obtain ⟨b, hb, heq⟩ := List.mem_map.1 hc
    exact (Ledger.mem_free.1 hb).2 heq
  have hfault := (Ledger.faults_of_not_live hdead).2
  rw [fsOpenFinishEffects]
  simp only [List.foldl_cons, List.foldl_append, applyHeap, List.foldl_nil, hsame]
  exact faults_foldl_ne_nil _ _ (by rw [hfault]; simp)

end OpenEffects

/-- A move that releases its context, if it does, only once and for the last time. -/
theorem Move.faults {w : FsWorld} {es : List FsEffect} {act : FsAction} {L : Ledger BlockKind Ptr}
    (hm : Move loader w w' k es act) (hlive : L.Live k.2)
    (hclean : k.1 = .fsOpenStep → Touches k.2 es) : (es.foldl applyHeap L).faults = L.faults := by
  by_cases hopen : k.1 = .fsOpenStep
  · rw [((hclean hopen).heap L).2 hlive]
  cases hm with
  | again ht | retry ht => rw [(ht.heap L).2 hlive]
  | @delegate l l' j lba ht ht' =>
    rw [List.foldl_append, (ht.heap L).2 hlive, List.foldl_cons,
      (ht'.heap _).2 (Ledger.live_of_mem (b := (.context j.1, j.2)) List.mem_cons_self)]
    rfl
  | finish ht _ hclose | quit ht _ hclose =>
    rw [List.foldl_append, (ht.heap L).2 hlive, List.foldl_cons]
    cases hclose with
    | clean => exact (L.faults_of_live hlive).1
    | silent h | twice h => exact absurd h hopen

/-- A start is clean. -/
theorem Start.faults {op : FsOp} {w : FsWorld} {es : List FsEffect} {act : FsAction}
    (hm : Start loader op w w' es act) (hallowed : op.Allowed s) :
    (es.foldl applyHeap s.heap).faults = s.heap.faults := by
  cases hm with
  | @posted l k lba ht =>
    rw [List.foldl_cons,
      (ht.heap _).2 (Ledger.live_of_mem (b := (.context k.1, k.2)) List.mem_cons_self)]
    rfl
  | called | made => rfl
  | @closed file ctx c status hop =>
    rw [hop] at hallowed
    exact (Ledger.faults_of_live (Ledger.live_of_mem hallowed)).1
  | loaded => simp [applyHeap, Ledger.apply, Ledger.Live]

/-- An open that does not complete only looks at its context. -/
theorem touches_of_not_completes {r1 : Word} {resp : SdResponse} {ctx : Ptr} {status : Int}
    (hP : ¬ CompletesOpen getNextCluster (.call a r1 resp) s)
    (hdue : s.due = some ((.fsOpenStep, ctx), status)) :
    Touches ctx (fsCodeEffects (info.driver getNextCluster r1) s.buffer (.fsOpenStep, ctx) status
      (a.stock s.world)) :=
  touches_of_not_finishes fun hc => hP ⟨a, r1, resp, ctx, status, rfl, hdue, hc⟩

/-- With loaders about, none is called as long as no open completes. -/
theorem FsInv.noLoaderCalled_of_not_completes {e : FsEvent} (h : FsInv True s rs s.dues)
    (hP : ¬ CompletesOpen getNextCluster e s) : NoLoaderCalled info getNextCluster e s := by
  rintro ⟨⟨w', act⟩, es⟩ hcode c status hact
  obtain rfl : act = .call c status := hact
  rcases h.code_cases (fun _ _ _ _ _ _ => trivial) hcode with
    ⟨op, a, r1, resp, -, hm⟩ | ⟨a, r1, resp, k, st, rfl, hdue, -, hop, hes, hm⟩ |
      ⟨a, r1, resp, ctx, st, -, -, hrun⟩
  · exact hm.not_elf
  · intro helf
    cases hm with
    | retry =>
      rw [helf] at hop
      exact absurd hop Bool.false_ne_true
    | @finish l l' _ _ _ _ _ _ hkind =>
      rcases hkind with hc | hc | ⟨-, -, hopen⟩
      · rw [helf] at hc
        exact absurd hc Bool.false_ne_true
      · exact absurd (helf.symm.trans hc) (by decide)
      · -- the context of an open is released, which is to complete it
        obtain ⟨cb, ctx⟩ := k
        obtain rfl : cb = .fsOpenStep := hopen
        have ht : Touches ctx (fsCodeEffects (info.driver getNextCluster r1) s.buffer _ st
          (a.stock s.world)) := touches_of_not_completes hP hdue
        rw [← hes] at ht
        rcases ht (free ctx) (by simp) with heq | ⟨c, heq⟩ <;> exact absurd heq (by simp)
  · exact absurd hrun (by simp)

/-- What is submitted or called last leaves the faults alone. -/
theorem act_faults {act : FsAction} {req : Ptr} {resp : SdResponse}
    (hs : s.act disk req resp act = some s') : s'.heap.faults = s.heap.faults := by
  cases act with
  | post lba k =>
    rw [FsSys.act, Option.map_eq_some_iff] at hs
    obtain ⟨io, -, rfl⟩ := hs
    rfl
  | call k status => exact Option.some.inj hs ▸ rfl
  | stop => exact Option.some.inj hs ▸ rfl

/-- Only a call completes an open. -/
theorem not_completes_of_not_call {e : FsEvent} (hcall : ∀ a r1 resp, e ≠ .call a r1 resp) :
    ¬ CompletesOpen getNextCluster e s := by
  rintro ⟨a, r1, resp, ctx, status, heq, -⟩
  exact hcall a r1 resp heq

/-- Only a call can be at fault. -/
theorem FsInv.faults_of_not_call {e : FsEvent} (h : FsInv True s rs s.dues)
    (hs : fsStep info getNextCluster disk e s = some s')
    (hcall : ∀ a r1 resp, e ≠ .call a r1 resp) : s'.heap.faults = s.heap.faults := by
  cases e with
  | start op a r1 resp =>
    rw [fsStep, Option.ite_none_right_eq_some] at hs
    obtain ⟨⟨-, -, hallowed, -⟩, hs⟩ := hs
    have hm := @fsOp_start True (info.driver getNextCluster r1) (a.stock s.world) op fun _ => trivial
    exact (act_faults hs).trans (hm.faults hallowed)
  | call a r1 resp => exact absurd rfl (hcall a r1 resp)
  | irq | spurious =>
    rw [fsStep, Option.map_eq_some_iff] at hs
    obtain ⟨io, -, rfl⟩ := hs
    rfl
  | pump =>
    rw [fsStep, Option.ite_none_right_eq_some, Option.map_eq_some_iff] at hs
    obtain ⟨-, io, -, rfl⟩ := hs
    rfl
  | test status =>
    rw [fsStep, Option.ite_none_right_eq_some] at hs
    obtain ⟨-, hs⟩ := hs
    split at hs
    · exact Option.some.inj hs ▸ rfl
    · rw [Option.ite_none_left_eq_some] at hs
      exact Option.some.inj hs.2 ▸ rfl
  | ret resp =>
    rw [fsStep] at hs
    split at hs
    · rename_i r hpump
      rw [Option.ite_none_right_eq_some, Option.map_eq_some_iff] at hs
      obtain ⟨-, io, -, rfl⟩ := hs
      exact (Ledger.faults_of_live (Ledger.live_of_mem (h.request_mem hpump))).1
    · exact absurd hs (by simp)
    · exact absurd hs (by simp)

/-- A call, from a state without faults: it is at fault if and only if it completes an open. -/
theorem FsInv.faults_of_call {a : Supply} {r1 : Word} {resp : SdResponse}
    (h : FsInv True s rs s.dues) (hclean : s.heap.faults = [])
    (hs : fsStep info getNextCluster disk (.call a r1 resp) s = some s') :
    s'.heap.faults = [] ↔ ¬ CompletesOpen getNextCluster (.call a r1 resp) s := by
  rw [fsStep, Option.ite_none_right_eq_some, Option.bind_eq_some_iff] at hs
  obtain ⟨-, run, hcode, hs⟩ := hs
  rw [show s'.heap.faults = (run.2.foldl applyHeap s.heap).faults from act_faults hs]
  rcases h.code_cases (fun _ _ _ _ _ _ => trivial) hcode with
    ⟨op, b, x, y, heq, -⟩ | ⟨b, x, y, k, st, heq, hdue, hk, hop, hes, hm⟩ |
      ⟨b, x, y, ctx, st, heq, hdue, rfl⟩
  · exact absurd heq (by simp)
  · obtain ⟨rfl, rfl, rfl⟩ : a = b ∧ r1 = x ∧ resp = y := by simpa using heq
    by_cases hdone : CompletesOpen getNextCluster (.call a r1 resp) s
    · obtain ⟨_, _, _, ctx, status, -, hdue', hfin⟩ := id hdone
      obtain ⟨rfl, rfl⟩ := Prod.mk.inj (Option.some.inj (hdue.symm.trans hdue'))
      have hfinish : run.2 = access ctx :: fsOpenFinishEffects ctx (a.stock s.world) :=
        hes.trans (fsOpenStepEffects_of_finishes hfin)
      rw [hfinish]
      exact ⟨fun hc => absurd hc (faults_of_finish (contexts_live hk)), fun hc => absurd hdone hc⟩
    · refine ⟨fun _ => hdone, fun _ => ?_⟩
      rw [hm.faults (contexts_live hk) fun hopen => ?_, hclean]
      obtain ⟨cb, ctx⟩ := k
      obtain rfl : cb = .fsOpenStep := hopen
      rw [hes]
      exact touches_of_not_completes hdone hdue
  · refine ⟨fun _ => ?_, fun _ => hclean⟩
    rintro ⟨_, _, _, _, _, -, hdue', -⟩
    exact absurd (hdue.symm.trans hdue') (by simp)

/-- **One event**, from a state without faults: there is one afterwards if and only if an open has
completed. -/
theorem FsInv.faults_iff {e : FsEvent} (h : FsInv True s rs s.dues) (hclean : s.heap.faults = [])
    (hs : fsStep info getNextCluster disk e s = some s') :
    s'.heap.faults = [] ↔ ¬ CompletesOpen getNextCluster e s := by
  by_cases hcall : ∀ a r1 resp, e ≠ .call a r1 resp
  · rw [h.faults_of_not_call hs hcall]
    exact ⟨fun _ => not_completes_of_not_call hcall, fun _ => hclean⟩
  · push Not at hcall
    obtain ⟨a, r1, resp, rfl⟩ := hcall
    exact h.faults_of_call hclean hs

/-- The invariant, with loaders about, in a run in which no open completes. -/
theorem FsReach.inv_of_not_completes
    (h : FsReach info getNextCluster disk (fun e s => ¬ CompletesOpen getNextCluster e s) s) :
    s.heap.faults = [] ∧ ∃ rs, FsInv True s rs s.dues := by
  induction h with
  | init w ring req rx => exact ⟨rfl, [], .init True w ring req rx⟩
  | @step s s' e _ hP hs ih =>
    obtain ⟨hclean, rs, ih⟩ := ih
    exact ⟨(ih.faults_iff hclean hs).2 hP,
      ih.step (fun _ _ _ _ _ _ => trivial) (ih.noLoaderCalled_of_not_completes hP) hs⟩

/-- **When the heap is used as it should be.**  In a run in which no open has completed, no pointer
has been given to `kfree`, and no context looked at, that was not in use; and the next event keeps it
so if and only if it does not complete an open. -/
theorem fs_heap_discipline_iff (info : FsRunningInfo) (getNextCluster : Sector → Word → Word)
    (disk : Word → Sector) (s : FsSys)
    (h : FsReach info getNextCluster disk (fun e s => ¬ CompletesOpen getNextCluster e s) s) :
    s.heap.faults = [] ∧ ∀ (e : FsEvent) (s' : FsSys),
      fsStep info getNextCluster disk e s = some s' →
        (s'.heap.faults = [] ↔ ¬ CompletesOpen getNextCluster e s) := by
  obtain ⟨hclean, rs, hinv⟩ := h.inv_of_not_completes
  exact ⟨hclean, fun e s' hs => hinv.faults_iff hclean hs⟩

end Ownership

/-! ## Runs

On a card full of zeros two clients read, and another opens a path. -/

/-- A volume whose table starts behind its size, so that `fat_calcualte_lba` only computes. -/
def plainInfo : FsRunningInfo := ⟨1, 32, 100, 8, 2⟩

/-- The file system on a card full of zeros, from boot. -/
def zeroScript (test : FsEvent → FsSys → Bool) (es : List FsEvent) : Option FsSys :=
  fsScript plainInfo (fun _ _ => 0) (fun _ _ => 0) test es bootSys

theorem zeroScript_reach {P : FsEvent → FsSys → Prop} {test : FsEvent → FsSys → Bool}
    (htest : ∀ e s, test e s = true → P e s) (es : List FsEvent)
    (hsome : (zeroScript test es).isSome) :
    ∃ s, zeroScript test es = some s ∧
      FsReach plainInfo (fun _ _ => 0) (fun _ _ => 0) P s := by
  obtain ⟨s, hs⟩ := Option.isSome_iff_exists.1 hsome
  exact ⟨s, hs, fsScript_reach htest es (.init _ _ _ _) hs⟩

/-- Two reads of four bytes: the first has completed, the second is in flight. -/
def readsScript : List FsEvent :=
  [.start (.read 0x500 0x600 4 0x40) (supplyAt 0x1000) 0 .transfer,
    .start (.read 0x700 0x800 4 0x44) (supplyAt 0x2000) 0 .transfer, .irq, .pump, .test 0,
    .call (supplyAt 0x3000) 0 .transfer, .call (supplyAt 0x3000) 0 .transfer, .ret .transfer]

/-- An open, up to its end, which is that the path is not found. -/
def openScript : List FsEvent :=
  [.start (.open [0x41] 0x500 0 true 0x40 0) (supplyAt 0x1000) 0 .transfer, .irq, .pump, .test 0,
    .call (supplyAt 0x2000) 0 .transfer]

/-- No step of an open is taken. -/
def noOpenTest : FsEvent → FsSys → Bool
  | .call _ _ _, s => decide (∀ k ∈ s.dues, k.1 ≠ .fsOpenStep)
  | _, _ => true

theorem not_completes_of_test {getNextCluster : Sector → Word → Word} (e : FsEvent) (s : FsSys)
    (h : noOpenTest e s = true) : ¬ CompletesOpen getNextCluster e s := by
  rintro ⟨a, r1, resp, ctx, status, rfl, hdue, -⟩
  exact of_decide_eq_true h _ (by rw [FsSys.dues, hdue]; exact List.mem_cons_self) rfl

/-- The two reads leave no fault. -/
theorem fs_heap_discipline_readsScript :
    ∃ s, zeroScript noOpenTest readsScript = some s ∧ s.ops.completed = [0] ∧
      s.heap.faults = [] := by
  obtain ⟨s, hs, hreach⟩ := zeroScript_reach not_completes_of_test readsScript (by decide +kernel)
  have hdone : (zeroScript noOpenTest readsScript).map (·.ops.completed) = some [0] := by
    decide +kernel
  rw [hs] at hdone
  exact ⟨s, hs, Option.some.inj hdone, (fs_heap_discipline_iff _ _ _ s hreach).1⟩

/-- **An open that does not find its path** frees its context twice, and looks at it in between. -/
theorem fs_open_frees_twice :
    ¬ ∀ s : FsSys, FsReach plainInfo (fun _ _ => 0) (fun _ _ => 0) (fun _ _ => True) s →
      s.heap.faults = [] := by
  intro h
  obtain ⟨s, hs, hreach⟩ := @zeroScript_reach (fun _ _ => True) (fun _ _ => true)
    (fun _ _ _ => trivial) openScript (by decide +kernel)
  have hfaults : (zeroScript (fun _ _ => true) openScript).map (·.heap.faults) =
      some [0x1000, 0x1000] := by decide +kernel
  rw [hs] at hfaults
  exact absurd ((Option.some.inj hfaults).symm.trans (h s hreach)) (by simp)

end RiscyOS
