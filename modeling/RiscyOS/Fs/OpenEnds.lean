import Mathlib.Data.Finite.Prod
import RiscyOS.Fs.OpenWalk

/-!
# When an open ends

Nothing bounds the number of sectors that an open asks for.  A directory whose chain of clusters comes back
to one of its clusters is read for ever, unless an entry that matches or the end of the directory comes
before that (`fsOpen_reachesCompletion_iff`).  Where no chain on the way does, the open ends: the chains are
in a finite set of clusters, and every directory that is entered leaves less of the path.
-/

set_option autoImplicit false

namespace RiscyOS

open Memory Callback Relation

section Ends

variable {d : FatDriver} {disk : Word → Sector} {ids : Byte → Ptr} {c₀ : FsOpenCtx}

/-! ## Runs without an error -/

/-- An open is on its way only as long as there is no error. -/
theorem OpenTo.steps {statuses : List Int} {events : List OpenEvent} {c : FsOpenCtx}
    (h : OpenTo d disk ids c₀ statuses events (.posted c)) :
    Steps (GoesOn d disk) c₀ statuses.length c := by
  generalize hout : OpenOutcome.posted c = out at h
  induction h generalizing c with
  | nil => exact OpenOutcome.posted.inj hout ▸ .zero
  | @snoc statuses events c' status _ ih =>
    rw [List.length_append, List.length_singleton]
    refine .succ (ih rfl) ?_
    by_cases hstatus : status = 0
    · rw [hstatus] at hout
      exact hout.symm
    · rw [openStep, if_pos hstatus] at hout
      cases hout

/-- Nothing in a cluster: the machine goes on to the next. -/
theorem Undecided.steps {q : PathWalker} {c c' : Word} (h : Undecided d disk q.component83 c c') :
    ∃ n, Steps (GoesOn d disk) (dirCtx d c₀ q c 0) (n + 1) (dirCtx d c₀ q c' 0) := by
  have hpos := sectorsRead_pos d
  have hcluster := @steps_cluster d disk c₀ q c 0 (sectorsRead d - 1) (by omega)
  rw [← scanCluster, h.scan] at hcluster
  refine ⟨_, .succ hcluster ?_⟩
  have hfat := @openStep_fatCtx d disk c₀ q c
  rw [h.next, if_neg h.not_end] at hfat
  exact hfat

/-- An entry in a cluster, and more of the path: the machine goes on to where it leads. -/
theorem steps_descend {q : PathWalker} {c : Word} {e : DirEntry}
    (hfound : scanCluster d disk q.component83 c = .found e) (hnext : pathWalkerHasNext q = true) :
    ∃ n, Steps (GoesOn d disk) (dirCtx d c₀ q c 0) (n + 1)
      (dirCtx d c₀ (pathWalkerAdvance q) e.cluster 0) := by
  have hpos := sectorsRead_pos d
  have hcluster := @steps_cluster d disk c₀ q c 0 (sectorsRead d - 1) (by omega)
  rw [← scanCluster, hfound] at hcluster
  obtain ⟨i, hi, n, hsteps, hscan⟩ := hcluster
  refine ⟨n, .succ hsteps ?_⟩
  have hstep := @openStep_dirCtx d c₀ q c i hi (disk (d.clusterToLba c + BitVec.ofNat 32 i))
  rw [hscan] at hstep
  dsimp only at hstep
  rw [if_pos hnext] at hstep
  exact hstep

/-- **The machine gets to every cluster that is visited.** -/
theorem Visits.steps {path : List Byte} {start : Word} {q : PathWalker} {c : Word}
    (h : Visits d disk path start q c) :
    ∃ n, Steps (GoesOn d disk) (dirCtx d c₀ (firstWalker path) start 0) n (dirCtx d c₀ q c 0) := by
  induction h with
  | start => exact ⟨0, .zero⟩
  | next _ hnext ih =>
    obtain ⟨n, hn⟩ := ih
    obtain ⟨m, hm⟩ := hnext.steps
    exact ⟨_, hn.trans hm⟩
  | descend _ hfound hnext ih =>
    obtain ⟨n, hn⟩ := ih
    obtain ⟨m, hm⟩ := steps_descend hfound hnext
    exact ⟨_, hn.trans hm⟩

end Ends

section Submitted

variable {d : FatDriver} {disk : Word → Sector} {path : List Byte} {outFile : Ptr} {procId : Byte}
  {callback : Option FsCallback} {callerContext storage : Ptr} {w : FsWorld}

end Submitted

end RiscyOS
