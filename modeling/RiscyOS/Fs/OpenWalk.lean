import RiscyOS.Fs.OpenMachine

/-!
# An open from cluster to cluster

Seen from further off, an open goes from one cluster to the next: it reads the sectors of a cluster one
after another until one of them decides the lookup (`scanCluster`), and if none does it goes on to the next
cluster of the chain (`Passes`).  `Visits` says which clusters it reads, and for what component; the card
may hold anything.
-/

set_option autoImplicit false

namespace RiscyOS

open Memory Callback

/-! ## Clusters -/

/-- How many sectors of a cluster are read.  It is one where the card says that there are none. -/
def sectorsRead (d : FatDriver) : Nat := max 1 d.sectorsPerCluster.toNat

/-- What reading sectors one after another ends with. -/
def scanSectors (component83 : List Byte) : List Sector → DirScan
  | [] => .noMatch
  | s :: ss =>
    match scanDir s component83 entriesPerSector 0 with
    | .noMatch => scanSectors component83 ss
    | r => r

/-- The sectors of a cluster that are read, from sector `j` on. -/
def clusterFrom (d : FatDriver) (disk : Word → Sector) (c : Word) (j : Nat) : List Sector :=
  (List.range' j (sectorsRead d - j)).map fun j => disk (d.clusterToLba c + BitVec.ofNat 32 j)

/-- What reading a cluster ends with. -/
def scanCluster (d : FatDriver) (disk : Word → Sector) (component83 : List Byte) (c : Word) : DirScan :=
  scanSectors component83 (clusterFrom d disk c 0)

/-- The next cluster of a chain, as the card has it. -/
def nextCluster (d : FatDriver) (disk : Word → Sector) (c : Word) : Word :=
  d.getNextCluster (disk (d.fatCalcualteLba c)) c

/-- Nothing in this cluster, and the chain goes on. -/
structure Undecided (d : FatDriver) (disk : Word → Sector) (component83 : List Byte) (c c' : Word) :
    Prop where
  scan : scanCluster d disk component83 c = .noMatch
  next : nextCluster d disk c = c'
  not_end : ¬ EndOfChain c'

/-- The clusters that an open reads, with the walker it reads them with: from where it starts, on to the
next of a chain, and into what the entry of a component that is not the last leads to. -/
inductive Visits (d : FatDriver) (disk : Word → Sector) (path : List Byte) (start : Word) :
    PathWalker → Word → Prop
  | start : Visits d disk path start (firstWalker path) start
  | next {q : PathWalker} {c c' : Word} (h : Visits d disk path start q c)
      (hnext : Undecided d disk q.component83 c c') : Visits d disk path start q c'
  | descend {q : PathWalker} {c : Word} {e : DirEntry} (h : Visits d disk path start q c)
      (hfound : scanCluster d disk q.component83 c = .found e) (hnext : pathWalkerHasNext q = true) :
      Visits d disk path start (pathWalkerAdvance q) e.cluster

/-! ## The contexts on the way -/

section Contexts

variable (d : FatDriver) (disk : Word → Sector) (c₀ : FsOpenCtx)

/-- The context of an open that has asked for sector `j` of cluster `c`. -/
def dirCtx (q : PathWalker) (c : Word) (j : Nat) : FsOpenCtx :=
  { c₀ with
    state := .parseDirSector
    walker := q
    currentCluster := c
    currentLba := d.clusterToLba c + BitVec.ofNat 32 j
    sectorInCluster := BitVec.ofNat 8 j }

/-- The context of an open that has asked for the allocation table. -/
def fatCtx (q : PathWalker) (c : Word) : FsOpenCtx :=
  { c₀ with
    state := .processFat
    walker := q
    currentCluster := c
    currentLba := d.fatCalcualteLba c
    sectorInCluster := BitVec.ofNat 8 (sectorsRead d) }

/-- The machine goes on, with no error. -/
def GoesOn (c c' : FsOpenCtx) : Prop := openStep d (disk c.currentLba) c 0 = .posted c'

variable {d disk c₀} {q : PathWalker} {c : Word} {j : Nat}

theorem sectorsRead_pos (d : FatDriver) : 0 < sectorsRead d := Nat.le_max_left ..

/-- The number of the sector is a byte, and does not overflow. -/
theorem sectorsPerCluster_le_iff (hj : j < sectorsRead d) :
    d.sectorsPerCluster ≤ BitVec.ofNat 8 j + 1 ↔ sectorsRead d = j + 1 := by
  have hspc := d.sectorsPerCluster.isLt
  rw [sectorsRead] at hj ⊢
  rw [show BitVec.ofNat 8 j + 1 = BitVec.ofNat 8 (j + 1) from (BitVec.ofNat_add j 1).symm, BitVec.le_def,
    BitVec.toNat_ofNat, Nat.mod_eq_of_lt (by omega)]
  omega

/-- The sectors from one on. -/
theorem clusterFrom_eq_cons (hj : j < sectorsRead d) :
    clusterFrom d disk c j = disk (d.clusterToLba c + BitVec.ofNat 32 j) :: clusterFrom d disk c (j + 1) := by
  rw [clusterFrom, show sectorsRead d - j = (sectorsRead d - (j + 1)) + 1 by omega, List.range'_succ,
    List.map_cons]
  rfl

theorem dirCtx_zero : dirCtx d c₀ q c 0 = { c₀ with
    state := .parseDirSector, walker := q, currentCluster := c, currentLba := d.clusterToLba c,
    sectorInCluster := 0 } := by
  rw [dirCtx, show d.clusterToLba c + BitVec.ofNat 32 0 = d.clusterToLba c from BitVec.add_zero _]
  rfl

/-- What the machine does with a sector of a directory. -/
theorem openStep_dirCtx (hj : j < sectorsRead d) (rx : Sector) :
    openStep d rx (dirCtx d c₀ q c j) 0 =
      match scanDir rx q.component83 entriesPerSector 0 with
      | .endOfDir => .finished { dirCtx d c₀ q c j with state := .notFound } none
      | .found e =>
        if pathWalkerHasNext q = true then .posted (dirCtx d c₀ (pathWalkerAdvance q) e.cluster 0)
        else .finished { dirCtx d c₀ q c j with state := .done } (some e)
      | .noMatch =>
        if sectorsRead d = j + 1 then .posted (fatCtx d c₀ q c)
        else .posted (dirCtx d c₀ q c (j + 1)) := by
  have hq : (dirCtx d c₀ q c j).walker = q := rfl
  have hsector : (dirCtx d c₀ q c j).sectorInCluster = BitVec.ofNat 8 j := rfl
  rw [openStep, if_neg (by decide), show (dirCtx d c₀ q c j).state = .parseDirSector from rfl]
  dsimp only
  rw [hq, hsector]
  cases scanDir rx q.component83 entriesPerSector 0 with
  | endOfDir => rfl
  | found e =>
    dsimp only
    by_cases hnext : pathWalkerHasNext q = true
    · rw [if_pos hnext, hnext, dirCtx_zero]
      rfl
    · rw [if_neg hnext, Bool.eq_false_of_not_eq_true hnext]
      rfl
  | noMatch =>
    dsimp only
    have hsucc : BitVec.ofNat 8 j + 1 = BitVec.ofNat 8 (j + 1) := (BitVec.ofNat_add j 1).symm
    have hlba : d.clusterToLba c + BitVec.ofNat 32 j + 1 = d.clusterToLba c + BitVec.ofNat 32 (j + 1) := by
      rw [BitVec.ofNat_add j 1, ← BitVec.add_assoc]
      rfl
    by_cases hend : sectorsRead d = j + 1
    · rw [if_pos ((sectorsPerCluster_le_iff hj).2 hend), if_pos hend, fatCtx, hend, hsucc]
      rfl
    · rw [if_neg (mt (sectorsPerCluster_le_iff hj).1 hend), if_neg hend, hsucc,
        show (dirCtx d c₀ q c j).currentLba + 1 = _ from hlba]
      rfl

/-- What it does with a sector of the table. -/
theorem openStep_fatCtx :
    openStep d (disk (d.fatCalcualteLba c)) (fatCtx d c₀ q c) 0 =
      if EndOfChain (nextCluster d disk c) then
        .finished { fatCtx d c₀ q c with state := .notFound } none
      else .posted (dirCtx d c₀ q (nextCluster d disk c) 0) := by
  rw [openStep, if_neg (by decide), dirCtx_zero]
  rfl

/-- **Reading a cluster** takes the machine to the sector that decides the lookup, or to the table. -/
theorem steps_cluster {k : Nat} (hk : j + (k + 1) = sectorsRead d) :
    match scanSectors q.component83 (clusterFrom d disk c j) with
    | .noMatch => Steps (GoesOn d disk) (dirCtx d c₀ q c j) (k + 1) (fatCtx d c₀ q c)
    | r => ∃ i < sectorsRead d, ∃ n, Steps (GoesOn d disk) (dirCtx d c₀ q c j) n (dirCtx d c₀ q c i) ∧
        scanDir (disk (d.clusterToLba c + BitVec.ofNat 32 i)) q.component83 entriesPerSector 0 = r := by
  induction k generalizing j with
  | zero =>
    have hlast : clusterFrom d disk c (j + 1) = [] := by
      rw [clusterFrom, show sectorsRead d - (j + 1) = 0 by omega]
      rfl
    rw [clusterFrom_eq_cons (by omega), hlast, scanSectors]
    have hstep := @openStep_dirCtx d c₀ q c j (by omega) (disk (d.clusterToLba c + BitVec.ofNat 32 j))
    cases hscan : scanDir (disk (d.clusterToLba c + BitVec.ofNat 32 j)) q.component83 entriesPerSector 0 with
    | endOfDir => exact ⟨j, by omega, 0, .zero, hscan⟩
    | found e => exact ⟨j, by omega, 0, .zero, hscan⟩
    | noMatch =>
      rw [hscan] at hstep
      dsimp only at hstep
      rw [if_pos (show sectorsRead d = j + 1 by omega)] at hstep
      exact .succ .zero hstep
  | succ k ih =>
    rw [clusterFrom_eq_cons (by omega), scanSectors]
    have hstep := @openStep_dirCtx d c₀ q c j (by omega) (disk (d.clusterToLba c + BitVec.ofNat 32 j))
    cases hscan : scanDir (disk (d.clusterToLba c + BitVec.ofNat 32 j)) q.component83 entriesPerSector 0 with
    | endOfDir => exact ⟨j, by omega, 0, .zero, hscan⟩
    | found e => exact ⟨j, by omega, 0, .zero, hscan⟩
    | noMatch =>
      rw [hscan] at hstep
      dsimp only at hstep ⊢
      rw [if_neg (show sectorsRead d ≠ j + 1 by omega)] at hstep
      have hrest := @ih (j + 1) (by omega)
      cases hscan' : scanSectors q.component83 (clusterFrom d disk c (j + 1)) with
      | noMatch =>
        rw [hscan'] at hrest
        exact hrest.head hstep
      | endOfDir | found e =>
        rw [hscan'] at hrest
        obtain ⟨i, hi, n, hsteps, hr⟩ := hrest
        exact ⟨i, hi, n + 1, hsteps.head hstep, hr⟩

end Contexts

end RiscyOS
