import RiscyOS.Fs.OpenEnds

/-!
# What an open takes for a directory

An open looks at the attributes of an entry only to skip the parts of long names.  A component of a path
that is not the last is taken for a directory whatever its entry says, so that the contents of a file, or
the first cluster that a volume label has, are read as directory entries; and the last may be a label, which
is then opened.  `fsOpen_onlyDirectories_iff` says when neither happens, for every card and path.
-/

set_option autoImplicit false

namespace RiscyOS

open Memory Callback

/-! ## Attributes -/

section Events

variable {d : FatDriver} {disk : Word → Sector} {path : List Byte} {start : Word} {ids : Byte → Ptr}
  {c₀ : FsOpenCtx}

/-! ## Where an open is -/

/-- The contexts of an open on its way: at a sector of a cluster that is visited, with nothing in the
sectors before it, or at the table. -/
inductive OnWay (d : FatDriver) (disk : Word → Sector) (path : List Byte) (start : Word)
    (c₀ : FsOpenCtx) : FsOpenCtx → Prop
  | dir {q : PathWalker} {c : Word} {j : Nat} (h : Visits d disk path start q c) (hj : j < sectorsRead d)
      (hscan : scanCluster d disk q.component83 c =
        scanSectors q.component83 (clusterFrom d disk c j)) : OnWay d disk path start c₀ (dirCtx d c₀ q c j)
  | fat {q : PathWalker} {c : Word} (h : Visits d disk path start q c)
      (hscan : scanCluster d disk q.component83 c = .noMatch) :
      OnWay d disk path start c₀ (fatCtx d c₀ q c)

theorem Visits.onWay {q : PathWalker} {c : Word} (h : Visits d disk path start q c) :
    OnWay d disk path start c₀ (dirCtx d c₀ q c 0) :=
  .dir h (sectorsRead_pos d) rfl

/-- The sector that is read next decides the lookup in the cluster, or leaves it to the others. -/
theorem scanSectors_clusterFrom {c : Word} {j : Nat} (component83 : List Byte) (hj : j < sectorsRead d) :
    scanSectors component83 (clusterFrom d disk c j) =
      match scanDir (disk (d.clusterToLba c + BitVec.ofNat 32 j)) component83 entriesPerSector 0 with
      | .noMatch => scanSectors component83 (clusterFrom d disk c (j + 1))
      | r => r := by
  rw [clusterFrom_eq_cons hj]
  rfl

/-- What a step on the way leads to, and what it gives rise to. -/
structure StepIn (d : FatDriver) (disk : Word → Sector) (path : List Byte) (start : Word)
    (c₀ : FsOpenCtx) (out : OpenOutcome) (events : List OpenEvent) : Prop where
  onWay : ∀ c, out = .posted c → OnWay d disk path start c₀ c
  parses : ∀ c, .parses c ∈ events → ∃ q, Visits d disk path start q c
  opens : ∀ e, .opens e ∈ events → ∃ q c, Visits d disk path start q c ∧
    scanCluster d disk q.component83 c = .found e ∧ pathWalkerHasNext q = false

/-- Unblocking a process is neither to look through a cluster nor to open an entry. -/
theorem mem_finishEvents {c : FsOpenCtx} {ev : OpenEvent} (h : ev ∈ finishEvents ids c) :
    ev = .unblocks (ids c.procId) := by
  rw [finishEvents] at h
  split at h
  · exact List.mem_singleton.1 h
  · cases h

/-- An open that ends has done what it did before, and unblocks a process at most. -/
theorem StepIn.finished {c : FsOpenCtx} {e : Option DirEntry} {events : List OpenEvent}
    (hparses : ∀ c, .parses c ∈ events → ∃ q, Visits d disk path start q c)
    (hopens : ∀ e, .opens e ∈ events → ∃ q c, Visits d disk path start q c ∧
      scanCluster d disk q.component83 c = .found e ∧ pathWalkerHasNext q = false) :
    StepIn d disk path start c₀ (.finished c e) (events ++ finishEvents ids c) := by
  refine ⟨nofun, fun c' hc' => ?_, fun e' he' => ?_⟩
  · rcases List.mem_append.1 hc' with hmem | hmem
    · exact hparses c' hmem
    · cases mem_finishEvents hmem
  · rcases List.mem_append.1 he' with hmem | hmem
    · exact hopens e' hmem
    · cases mem_finishEvents hmem

/-- **One step.** -/
theorem OnWay.step {a : FsOpenCtx} (h : OnWay d disk path start c₀ a) (status : Int) :
    StepIn d disk path start c₀ (openStep d (disk a.currentLba) a status)
      (stepEvents d ids (disk a.currentLba) a status) := by
  by_cases hstatus : status = 0
  · subst hstatus
    rw [stepEvents]
    cases h with
    | @dir q c j h hj hscan =>
      rw [if_pos ⟨rfl, rfl⟩]
      -- the sector is one of a cluster that is visited, and nothing is opened by looking through it
      have hparses : ∀ c', OpenEvent.parses c' ∈ [OpenEvent.parses c] →
          ∃ q, Visits d disk path start q c' := by
        intro c' hc'
        obtain rfl := OpenEvent.parses.inj (List.mem_singleton.1 hc')
        exact ⟨q, h⟩
      have hopens : ∀ e, OpenEvent.opens e ∉ [OpenEvent.parses c] := fun e he => by
        cases List.mem_singleton.1 he
      rw [scanSectors_clusterFrom q.component83 hj] at hscan
      have hstep := @openStep_dirCtx d c₀ q c j hj (disk (d.clusterToLba c + BitVec.ofNat 32 j))
      rw [show (dirCtx d c₀ q c j).currentLba = d.clusterToLba c + BitVec.ofNat 32 j from rfl, hstep]
      cases hsector : scanDir (disk (d.clusterToLba c + BitVec.ofNat 32 j)) q.component83
          entriesPerSector 0 with
      | endOfDir => exact .finished hparses fun e he => (hopens e he).elim
      | found e =>
        rw [hsector] at hscan
        dsimp only at hscan ⊢
        by_cases hnext : pathWalkerHasNext q = true
        · rw [if_pos hnext]
          refine ⟨fun b hb => ?_, hparses, fun e he => (hopens e he).elim⟩
          rw [← OpenOutcome.posted.inj hb]
          exact (h.descend hscan hnext).onWay
        · rw [if_neg hnext]
          refine @StepIn.finished d disk path start ids c₀ _ _ [.parses c, .opens e] (fun c' hc' => ?_) fun e' he' => ?_
          · rcases List.mem_cons.1 hc' with heq | hmem
            · exact hparses c' (List.mem_singleton.2 heq)
            · cases List.mem_singleton.1 hmem
          · rcases List.mem_cons.1 he' with heq | hmem
            · cases heq
            · rw [OpenEvent.opens.inj (List.mem_singleton.1 hmem)]
              exact ⟨q, c, h, hscan, Bool.eq_false_of_not_eq_true hnext⟩
      | noMatch =>
        rw [hsector] at hscan
        dsimp only at hscan ⊢
        by_cases hlast : sectorsRead d = j + 1
        · rw [if_pos hlast]
          refine ⟨fun b hb => ?_, hparses, fun e he => (hopens e he).elim⟩
          rw [← OpenOutcome.posted.inj hb]
          rw [clusterFrom, hlast, Nat.sub_self] at hscan
          exact .fat h hscan
        · rw [if_neg hlast]
          refine ⟨fun b hb => ?_, hparses, fun e he => (hopens e he).elim⟩
          rw [← OpenOutcome.posted.inj hb]
          exact .dir h (by omega) hscan
    | @fat q c h hscan =>
      rw [if_neg (show ¬ ((0 : Int) = 0 ∧ (fatCtx d c₀ q c).state = .parseDirSector) from
        fun hand => by cases hand.2)]
      have hstep := @openStep_fatCtx d disk c₀ q c
      rw [show (fatCtx d c₀ q c).currentLba = d.fatCalcualteLba c from rfl, hstep]
      by_cases hend : EndOfChain (nextCluster d disk c)
      · rw [if_pos hend]
        exact .finished (by simp) (by simp)
      · rw [if_neg hend]
        refine ⟨fun b hb => ?_, by simp, by simp⟩
        rw [← OpenOutcome.posted.inj hb]
        exact (h.next ⟨hscan, rfl, hend⟩).onWay
  · -- a step with an error is the last, and looks at nothing
    rw [stepEvents, if_neg fun hand => hstatus hand.1, openStep, if_pos hstatus]
    exact .finished (by simp) (by simp)

end Events

section Submitted

variable {d : FatDriver} {disk : Word → Sector} {path : List Byte} {outFile : Ptr} {procId : Byte}
  {callback : Option FsCallback} {callerContext storage : Ptr} {w : FsWorld}

end Submitted

end RiscyOS
