import RiscyOS.Fs.Directory
import RiscyOS.Fs.SeekSpec

/-!
# Which file an open finds

For each name the open reads the directory it is in, sector by sector and cluster by cluster, and
that is as good as looking the name up in the directory as a whole (`ensures_lookup`).  Over the
names the walker is to offer the packed form of each in turn.  It does so for every name but the
last of a longer path: a component that ends the path is read but not packed, and what is compared
with the entries of the last directory is the name before it (`walkFrom`).

So a path of one name is opened as it should be, and so is one that leads through a directory that
is not there.  `fsOpen_resolves_iff` says when the others are.
-/

set_option autoImplicit false

namespace RiscyOS

open Memory Callback

/-! ## The path walker -/

/-- The walker has the names `rest` of the path before it. -/
structure WalkerAt (path : List Byte) (rest : List Name83) (p : PathWalker) : Prop where
  fullPath : p.fullPath = path
  hasNext : pathWalkerHasNext p = !rest.isEmpty
  drop : rest ≠ [] → path.drop p.offset.toNat = pathOf rest

theorem WalkerAt.init (ns : List Name83) (hns : ns ≠ []) (component component83 : List Byte) :
    WalkerAt (pathOf ns) ns ⟨pathOf ns, 0, component, component83⟩ := by
  refine ⟨rfl, ?_, fun _ => rfl⟩
  rw [List.isEmpty_eq_false_iff.2 hns]
  rfl

/-- **Advancing** reads the next name, and packs it unless it is the last. -/
theorem WalkerAt.advance {path : List Byte} {n : Name83} {rest : List Name83} {p : PathWalker}
    (h : WalkerAt path (n :: rest) p) :
    WalkerAt path rest (pathWalkerAdvance p) ∧ (pathWalkerAdvance p).component = n.text ∧
      (pathWalkerAdvance p).component83 = if rest = [] then p.component83 else n.packed := by
  have hdrop := h.drop (List.cons_ne_nil n rest)
  rw [pathWalkerAdvance, h.fullPath, hdrop, getNextPathComponent_pathOf]
  by_cases hrest : rest = []
  · simp only [hrest, if_pos (pathOf_eq_nil_iff.2 rfl), if_true]
    exact ⟨⟨rfl, rfl, fun hne => absurd rfl hne⟩, trivial, trivial⟩
  · simp only [if_neg (mt pathOf_eq_nil_iff.1 hrest), if_neg hrest]
    have hsuffix : pathOf rest <:+ path := by
      refine List.IsSuffix.trans ?_ (List.drop_suffix p.offset.toNat path)
      rw [hdrop, pathOf_cons]
      exact List.suffix_cons_iff.2 (Or.inr (List.suffix_append _ _))
    have hle := hsuffix.length_le
    have hoffset : ((path.length : Int) - (pathOf rest).length).toNat =
        path.length - (pathOf rest).length := by omega
    refine ⟨⟨rfl, ?_, fun _ => ?_⟩, trivial, n.makeFat83Name_text⟩
    · have hnonneg : 0 ≤ (path.length : Int) - (pathOf rest).length := by omega
      rw [List.isEmpty_eq_false_iff.2 hrest, pathWalkerHasNext]
      exact decide_eq_true hnonneg
    · rw [hoffset]
      exact (List.suffix_iff_eq_drop.1 hsuffix).symm

/-! ## The steps of an open -/

theorem storeParentCluster_setOpenCtx (w : FsWorld) (p storage : Ptr) (c : FsOpenCtx)
    (cluster : Word) : storeParentCluster storage cluster (w.setOpenCtx p c) =
      (storeParentCluster storage cluster w).setOpenCtx p c := by
  rw [storeParentCluster, storeParentCluster]
  split <;> rfl

section Steps

variable {d : FatDriver} {rx : Sector} {p outFile storage cctx : Ptr} {walker : PathWalker}
  {c lba : Word} {j : Byte} {cb : FsCallback} {w : FsWorld} {e : DirEntry}

/-- The directory ends. -/
theorem fsOpenStep_endOfDir (hctx : w.openCtx p =
      ⟨.parseDirSector, walker, c, lba, j, outFile, storage, 0, some cb, cctx⟩)
    (hscan : scanDir rx walker.component83 entriesPerSector 0 = .endOfDir) :
    fsOpenStep d rx p 0 w =
      (w.setOpenCtx p ⟨.notFound, walker, c, lba, j, outFile, storage, 0, some cb, cctx⟩,
        .call (cb, cctx) (-1)) := by
  rw [fsOpenStep, if_neg (by decide)]
  simp only [hctx, hscan]
  simp [fsOpenFinish]

/-- The last name is found. -/
theorem fsOpenStep_done (hctx : w.openCtx p =
      ⟨.parseDirSector, walker, c, lba, j, outFile, storage, 0, some cb, cctx⟩)
    (hscan : scanDir rx walker.component83 entriesPerSector 0 = .found e)
    (hlast : pathWalkerHasNext walker = false) :
    fsOpenStep d rx p 0 w =
      ((w.setFile outFile ⟨0, e.cluster, e.cluster, 0, 0, 0, e.fileSize⟩).setOpenCtx p
        ⟨.done, walker, c, lba, j, outFile, storage, 0, some cb, cctx⟩, .call (cb, cctx) 0) := by
  rw [fsOpenStep, if_neg (by decide)]
  simp only [hctx, hscan, hlast]
  simp [fsOpenFinish]

/-- Another name is found, and the next is looked for in the directory it leads to. -/
theorem fsOpenStep_descend (hctx : w.openCtx p =
      ⟨.parseDirSector, walker, c, lba, j, outFile, storage, 0, some cb, cctx⟩)
    (hscan : scanDir rx walker.component83 entriesPerSector 0 = .found e)
    (hnext : pathWalkerHasNext walker = true) :
    fsOpenStep d rx p 0 w =
      ((storeParentCluster storage e.cluster w).setOpenCtx p
        ⟨.parseDirSector, pathWalkerAdvance walker, e.cluster, d.clusterToLba e.cluster, 0, outFile,
          storage, 0, some cb, cctx⟩, .post (d.clusterToLba e.cluster) (.fsOpenStep, p)) := by
  rw [fsOpenStep, if_neg (by decide)]
  simp only [hctx, hscan, hnext, storeParentCluster_setOpenCtx]
  simp [fsOpenPostIo]

/-- Nothing in this sector, and there is another in the cluster. -/
theorem fsOpenStep_nextSector (hctx : w.openCtx p =
      ⟨.parseDirSector, walker, c, lba, j, outFile, storage, 0, some cb, cctx⟩)
    (hscan : scanDir rx walker.component83 entriesPerSector 0 = .noMatch)
    (hj : ¬ d.sectorsPerCluster ≤ j + 1) :
    fsOpenStep d rx p 0 w =
      (w.setOpenCtx p ⟨.parseDirSector, walker, c, lba + 1, j + 1, outFile, storage, 0, some cb,
        cctx⟩, .post (lba + 1) (.fsOpenStep, p)) := by
  rw [fsOpenStep, if_neg (by decide)]
  simp only [hctx, hscan, if_neg hj]
  simp [fsOpenPostIo]

/-- Nothing in this sector, and it was the last of the cluster. -/
theorem fsOpenStep_endOfCluster (hctx : w.openCtx p =
      ⟨.parseDirSector, walker, c, lba, j, outFile, storage, 0, some cb, cctx⟩)
    (hscan : scanDir rx walker.component83 entriesPerSector 0 = .noMatch)
    (hj : d.sectorsPerCluster ≤ j + 1) :
    fsOpenStep d rx p 0 w =
      (w.setOpenCtx p ⟨.processFat, walker, c, d.fatCalcualteLba c, j + 1, outFile, storage, 0,
        some cb, cctx⟩, .post (d.fatCalcualteLba c) (.fsOpenStep, p)) := by
  rw [fsOpenStep, if_neg (by decide)]
  simp only [hctx, hscan, if_pos hj]
  simp [fsOpenPostIo]

/-- The chain ends. -/
theorem fsOpenStep_endOfChain (hctx : w.openCtx p =
      ⟨.processFat, walker, c, lba, j, outFile, storage, 0, some cb, cctx⟩)
    (hend : EndOfChain (d.getNextCluster rx c)) :
    fsOpenStep d rx p 0 w =
      (w.setOpenCtx p ⟨.notFound, walker, c, lba, j, outFile, storage, 0, some cb, cctx⟩,
        .call (cb, cctx) (-1)) := by
  rw [fsOpenStep, if_neg (by decide)]
  simp only [hctx, if_pos hend]
  simp [fsOpenFinish]

/-- The chain goes on. -/
theorem fsOpenStep_nextCluster {next : Word} (hctx : w.openCtx p =
      ⟨.processFat, walker, c, lba, j, outFile, storage, 0, some cb, cctx⟩)
    (hnext : d.getNextCluster rx c = next) (hend : ¬ EndOfChain next) :
    fsOpenStep d rx p 0 w =
      (w.setOpenCtx p ⟨.parseDirSector, walker, next, d.clusterToLba next, 0, outFile, storage, 0,
        some cb, cctx⟩, .post (d.clusterToLba next) (.fsOpenStep, p)) := by
  rw [fsOpenStep, if_neg (by decide)]
  simp only [hctx, hnext, if_neg hend]
  simp [fsOpenPostIo]

end Steps

/-! ## Looking up a name -/

section Lookup

variable {v : Volume} {p outFile storage cctx : Ptr} {cb : FsCallback} {walker : PathWalker}
  {R : FsClosure → FsWorld → FsWorld → Prop} {Q : FsWorld → FsClosure → Int → Prop}
  {I : FsWorld → Prop} {result : Option DirEntry}

/-- The context of an open that has asked for sector `j` of cluster `c`. -/
def OpenAt (v : Volume) (p outFile storage : Ptr) (cb : FsCallback) (cctx : Ptr)
    (walker : PathWalker) (c : Word) (j : Nat) (w : FsWorld) : Prop :=
  w.openCtx p = ⟨.parseDirSector, walker, c, v.clusterToLba c + BitVec.ofNat 32 j,
    BitVec.ofNat 8 j, outFile, storage, 0, some cb, cctx⟩

/-- What has to be known of a lookup: that the open goes on from an entry found, and from none. -/
structure LookupSpec (v : Volume) (p outFile storage : Ptr) (cb : FsCallback) (cctx : Ptr)
    (walker : PathWalker) (R : FsClosure → FsWorld → FsWorld → Prop)
    (Q : FsWorld → FsClosure → Int → Prop) (I : FsWorld → Prop) (result : Option DirEntry) :
    Prop where
  rely : ∀ w w', R (.fsOpenStep, p) w w' → w'.openCtx p = w.openCtx p ∧ (I w → I w')
  frame : ∀ w c, I w → I (w.setOpenCtx p c)
  found : ∀ e, result = some e → ∀ rx w c j, I w →
    OpenAt v p outFile storage cb cctx walker c j w →
    scanDir rx walker.component83 entriesPerSector 0 = .found e →
    Ensures (fsCode v.toFatDriver) v.disk R Q rx (fsOpenStep v.toFatDriver rx p 0 w).1
      (fsOpenStep v.toFatDriver rx p 0 w).2
  none : result = none → ∀ rx w, I w →
    Ensures (fsCode v.toFatDriver) v.disk R Q rx w (.call (cb, cctx) (-1))

/-- The sectors of a cluster from one on. -/
theorem Volume.drop_clusterSectors {c : Word} {j : Nat} (hj : j < v.sectorsPerCluster.toNat) :
    (v.clusterSectors c).drop j =
      v.disk (v.clusterToLba c + BitVec.ofNat 32 j) :: (v.clusterSectors c).drop (j + 1) := by
  have hlen : j < (v.clusterSectors c).length := by
    rw [clusterSectors, List.length_map, List.length_range]
    exact hj
  rw [List.drop_eq_getElem_cons hlen]
  simp [clusterSectors]

/-- The scan of a sector decides the lookup in it and what follows. -/
theorem dirLookup_cons_sector (name : List Byte) (s : Sector) (ss : List Sector) :
    dirLookup name ((s :: ss).flatMap sectorEntries) =
      match scanDir s name entriesPerSector 0 with
      | .endOfDir => none
      | .found e => some e
      | .noMatch => dirLookup name (ss.flatMap sectorEntries) := by
  rw [List.flatMap_cons, dirLookup_append, scanDir_eq, ← List.range_eq_range']
  rfl

/-- **One sector** decides the lookup, or leaves it to what follows. -/
theorem ensures_sector {c : Word} {rest : List Sector} {j : Nat}
    (h : LookupSpec v p outFile storage cb cctx walker R Q I result)
    (hj : j < v.sectorsPerCluster.toNat)
    (hresult : dirLookup walker.component83
      (((v.clusterSectors c).drop j ++ rest).flatMap sectorEntries) = result)
    (hnext : ∀ s w, s = v.disk (v.clusterToLba c + BitVec.ofNat 32 j) → I w →
      OpenAt v p outFile storage cb cctx walker c j w →
      scanDir s walker.component83 entriesPerSector 0 = .noMatch →
      dirLookup walker.component83
        (((v.clusterSectors c).drop (j + 1) ++ rest).flatMap sectorEntries) = result →
      Ensures (fsCode v.toFatDriver) v.disk R Q s (fsOpenStep v.toFatDriver s p 0 w).1
        (fsOpenStep v.toFatDriver s p 0 w).2)
    {rx : Sector} {w : FsWorld} (hI : I w)
    (hctx : OpenAt v p outFile storage cb cctx walker c j w) :
    Ensures (fsCode v.toFatDriver) v.disk R Q rx w
      (.post (v.clusterToLba c + BitVec.ofNat 32 j) (.fsOpenStep, p)) := by
  refine .post fun w' hR => ?_
  obtain ⟨hsame, hI'⟩ := h.rely w w' hR
  have hctx' : OpenAt v p outFile storage cb cctx walker c j w' := hsame.trans hctx
  rw [v.drop_clusterSectors hj, List.cons_append, dirLookup_cons_sector] at hresult
  change Ensures _ _ _ _ _ (fsOpenStep v.toFatDriver _ p 0 w').1 (fsOpenStep v.toFatDriver _ p 0 w').2
  generalize hs : v.disk (v.clusterToLba c + BitVec.ofNat 32 j) = s at *
  cases hscan : scanDir s walker.component83 entriesPerSector 0 with
  | endOfDir =>
    rw [hscan] at hresult
    rw [fsOpenStep_endOfDir hctx' hscan]
    exact h.none hresult.symm _ _ (h.frame _ _ (hI' hI))
  | found e =>
    rw [hscan] at hresult
    exact h.found e hresult.symm _ _ _ _ (hI' hI) hctx' hscan
  | noMatch =>
    rw [hscan] at hresult
    exact hnext s w' rfl (hI' hI) hctx' hscan hresult

/-- **One cluster.**  From sector `j` on the open reads the sectors of the cluster, and unless one
of them decides the lookup it asks for the allocation table. -/
theorem ensures_cluster {c : Word} {rest : List Sector} {j k : Nat}
    (h : LookupSpec v p outFile storage cb cctx walker R Q I result)
    (hk : j + (k + 1) = v.sectorsPerCluster.toNat)
    (hresult : dirLookup walker.component83
      (((v.clusterSectors c).drop j ++ rest).flatMap sectorEntries) = result)
    (hend : dirLookup walker.component83 (rest.flatMap sectorEntries) = result → ∀ rx w s, I w →
      w.openCtx p = ⟨.processFat, walker, c, v.fatCalcualteLba c, s, outFile, storage, 0, some cb,
        cctx⟩ →
      Ensures (fsCode v.toFatDriver) v.disk R Q rx w
        (.post (v.fatCalcualteLba c) (.fsOpenStep, p)))
    {rx : Sector} {w : FsWorld} (hI : I w)
    (hctx : OpenAt v p outFile storage cb cctx walker c j w) :
    Ensures (fsCode v.toFatDriver) v.disk R Q rx w
      (.post (v.clusterToLba c + BitVec.ofNat 32 j) (.fsOpenStep, p)) := by
  have hspc := v.sectorsPerCluster.isLt
  have hbyte : ∀ i, i < 256 → (BitVec.ofNat 8 i : Byte).toNat = i := fun i hi => Nat.mod_eq_of_lt hi
  have hsucc : BitVec.ofNat 8 j + 1 = BitVec.ofNat 8 (j + 1) := (BitVec.ofNat_add j 1).symm
  induction k generalizing j rx w with
  | zero =>
    -- the last sector of the cluster
    refine ensures_sector h (by omega) hresult (fun s w' _ hI' hctx' hscan hrest => ?_) hI hctx
    have hlast : v.sectorsPerCluster ≤ BitVec.ofNat 8 j + 1 := by
      rw [hsucc, BitVec.le_def, BitVec.toNat_ofNat, ← hk]
      omega
    rw [fsOpenStep_endOfCluster hctx' hscan hlast]
    rw [List.drop_eq_nil_of_le (by simp [Volume.clusterSectors]; omega), List.nil_append] at hrest
    exact hend hrest _ _ _ (h.frame _ _ hI') (setOpenCtx_openCtx ..)
  | succ k ih =>
    refine ensures_sector h (by omega) hresult (fun s w' _ hI' hctx' hscan hrest => ?_) hI hctx
    have hmore : ¬ v.sectorsPerCluster ≤ BitVec.ofNat 8 j + 1 := by
      rw [hsucc, BitVec.le_def, hbyte _ (by omega)]
      omega
    have hlba : v.clusterToLba c + BitVec.ofNat 32 j + 1 =
        v.clusterToLba c + BitVec.ofNat 32 (j + 1) := by
      rw [BitVec.ofNat_add, BitVec.add_assoc]
      rfl
    rw [fsOpenStep_nextSector hctx' hscan hmore, hlba, hsucc]
    exact ih (by omega) hrest (h.frame _ _ hI') (setOpenCtx_openCtx ..) (BitVec.ofNat_add _ 1).symm

/-- **The lookup completes.**  From the first sector of what is left of the chain, the open gets to
the entry that the lookup in all that is left gives. -/
theorem ensures_lookup {c : Word} {l : List Word}
    (h : LookupSpec v p outFile storage cb cctx walker R Q I result)
    (hchain : v.Chain c (c :: l))
    (hresult : dirLookup walker.component83 (v.dirEntries (c :: l)) = result)
    {rx : Sector} {w : FsWorld} (hI : I w) (hctx : OpenAt v p outFile storage cb cctx walker c 0 w) :
    Ensures (fsCode v.toFatDriver) v.disk R Q rx w
      (.post (v.clusterToLba c) (.fsOpenStep, p)) := by
  have hspc := v.sectorsPerCluster_pos
  have hk : 0 + (v.sectorsPerCluster.toNat - 1 + 1) = v.sectorsPerCluster.toNat := by omega
  have hlba : v.clusterToLba c = v.clusterToLba c + BitVec.ofNat 32 0 := (BitVec.add_zero _).symm
  rw [Volume.dirEntries, List.flatMap_cons] at hresult
  induction l generalizing c rx w with
  | nil =>
    rw [hlba]
    refine ensures_cluster h hk hresult (fun hrest rx' w' s hI' hctx' => ?_) hI hctx
    refine .post fun w'' hR => ?_
    obtain ⟨hsame, hI''⟩ := h.rely w' w'' hR
    have hend : EndOfChain (v.getNextCluster (v.disk (v.fatCalcualteLba c)) c) := by
      rw [v.getNextCluster_eq]
      exact hchain.2.2
    have hcode : fsCode v.toFatDriver (v.disk (v.fatCalcualteLba c)) (.fsOpenStep, p) 0 w'' = _ :=
      fsOpenStep_endOfChain (hsame.trans hctx') hend
    rw [hcode]
    exact h.none hrest.symm _ _ (h.frame _ _ (hI'' hI'))
  | cons c' l ih =>
    rw [hlba]
    refine ensures_cluster h hk hresult (fun hrest rx' w' s hI' hctx' => ?_) hI hctx
    refine .post fun w'' hR => ?_
    obtain ⟨hsame, hI''⟩ := h.rely w' w'' hR
    obtain ⟨hnext, hend, hchain'⟩ := hchain.2.2
    have hcode : fsCode v.toFatDriver (v.disk (v.fatCalcualteLba c)) (.fsOpenStep, p) 0 w'' = _ :=
      fsOpenStep_nextCluster (hsame.trans hctx') ((v.getNextCluster_eq c).trans hnext) hend
    rw [hcode]
    refine ih ⟨rfl, hend, hchain'⟩ hrest (h.frame _ _ (hI'' hI')) ?_ (BitVec.add_zero _).symm
    rw [OpenAt, setOpenCtx_openCtx]
    simp

end Lookup

/-! ## Walking a path -/

section Walk

variable {v : Volume} {dirs : Word → List Word} {p outFile storage cctx : Ptr} {cb : FsCallback}
  {R : FsClosure → FsWorld → FsWorld → Prop} {Q : FsWorld → FsClosure → Int → Prop}
  {I : Word → FsWorld → Prop} {result : Option (Word × DirEntry)}

/-- **What the open looks up**, from directory `c` on: `m` there, and then the names `rest`, except
that in place of the last of them it looks for the name before it once more. -/
def Volume.walkFrom (v : Volume) (dirs : Word → List Word) :
    Word → Name83 → List Name83 → Option (Word × DirEntry)
  | c, m, [] => (dirLookup m.packed (v.dirEntries (dirs c))).map fun e => (c, e)
  | c, m, n :: rest => (dirLookup m.packed (v.dirEntries (dirs c))).bind fun e =>
      walkFrom v dirs e.cluster (if rest = [] then m else n) rest

/-- What has to be known of a walk: that the caller goes on from the file opened, and from a
failure.  `I d` is what is known of the world while the walk is in directory `d`. -/
structure WalkSpec (v : Volume) (p outFile storage : Ptr) (cb : FsCallback) (cctx : Ptr)
    (R : FsClosure → FsWorld → FsWorld → Prop) (Q : FsWorld → FsClosure → Int → Prop)
    (I : Word → FsWorld → Prop) (result : Option (Word × DirEntry)) : Prop where
  rely : ∀ d w w', R (.fsOpenStep, p) w w' → w'.openCtx p = w.openCtx p ∧ (I d w → I d w')
  frame : ∀ d w c, I d w → I d (w.setOpenCtx p c)
  store : ∀ d w c, I d w → I c (storeParentCluster storage c w)
  done : ∀ d e, result = some (d, e) → ∀ rx w x, I d w →
    Ensures (fsCode v.toFatDriver) v.disk R Q rx
      ((w.setFile outFile ⟨0, e.cluster, e.cluster, 0, 0, 0, e.fileSize⟩).setOpenCtx p x)
      (.call (cb, cctx) 0)
  none : result = none → ∀ d rx w, I d w →
    Ensures (fsCode v.toFatDriver) v.disk R Q rx w (.call (cb, cctx) (-1))

/-- A directory on the way starts with its first cluster. -/
theorem Volume.exists_dir_eq {c : Word} (h : v.Chain c (dirs c) ∧ dirs c ≠ []) :
    ∃ l, dirs c = c :: l ∧ v.Chain c (c :: l) := by
  obtain ⟨hchain, hne⟩ := h
  cases hdir : dirs c with
  | nil => exact absurd hdir hne
  | cons x l =>
    rw [hdir] at hchain
    obtain rfl : c = x := hchain.1
    exact ⟨l, rfl, hchain⟩

/-- **The walk completes**, with what `walkFrom` says. -/
theorem ensures_names {path : List Byte} {m : Name83} {rest : List Name83} {c : Word}
    {walker : PathWalker} {rx : Sector} {w : FsWorld}
    (h : WalkSpec v p outFile storage cb cctx R Q I result)
    (hwalk : v.Walkable dirs c (m :: rest).dropLast) (hresult : v.walkFrom dirs c m rest = result)
    (hat : WalkerAt path rest walker) (hname : walker.component83 = m.packed) (hI : I c w)
    (hctx : OpenAt v p outFile storage cb cctx walker c 0 w) :
    Ensures (fsCode v.toFatDriver) v.disk R Q rx w
      (.post (v.clusterToLba c) (.fsOpenStep, p)) := by
  induction rest generalizing c m walker rx w with
  | nil =>
    obtain ⟨l, hdir, hchain⟩ := v.exists_dir_eq hwalk
    rw [Volume.walkFrom, hdir] at hresult
    refine ensures_lookup (I := I c) ⟨h.rely c, h.frame c, fun e he rx w _ _ hI hctx hscan => ?_,
      fun hnone rx w hI => ?_⟩ hchain (by rw [hname]) hI hctx
    · rw [fsOpenStep_done hctx hscan hat.hasNext]
      exact h.done c e (by rw [← hresult, he]; rfl) _ _ _ hI
    · exact h.none (by rw [← hresult, hnone]; rfl) c rx w hI
  | cons n rest ih =>
    obtain ⟨l, hdir, hchain⟩ := v.exists_dir_eq hwalk.1
    rw [Volume.walkFrom, hdir] at hresult
    refine ensures_lookup (I := I c) ⟨h.rely c, h.frame c, fun e he rx w _ _ hI hctx hscan => ?_,
      fun hnone rx w hI => ?_⟩ hchain (by rw [hname]) hI hctx
    · rw [he] at hresult
      obtain ⟨hat', -, hname'⟩ := hat.advance
      rw [fsOpenStep_descend hctx hscan hat.hasNext]
      have hwalk' := hwalk.2 e (by rw [hdir]; exact he)
      refine ih ?_ hresult hat' ?_ (h.frame _ _ _ (h.store _ _ _ hI)) ?_
      · cases rest with
        | nil => exact hwalk'
        | cons n' rest => exact hwalk'
      · rw [hname', hname]
        split <;> rfl
      · rw [OpenAt, setOpenCtx_openCtx]
        simp
    · exact h.none (by rw [← hresult, hnone]; rfl) c rx w hI

/-- The name the open compares in the last directory. -/
theorem Volume.walkFrom_eq (c : Word) (m last : Name83) (init : List Name83) :
    v.walkFrom dirs c m (init ++ [last]) =
      (v.walkDir dirs c (m :: init)).bind fun d =>
        (dirLookup ((m :: init).getLast (List.cons_ne_nil m init)).packed
          (v.dirEntries (dirs d))).map fun e => (d, e) := by
  induction init generalizing c m with
  | nil =>
    rw [List.nil_append, walkFrom, walkDir, Option.bind_assoc]
    rfl
  | cons n init ih =>
    rw [List.cons_append, walkFrom, walkDir, Option.bind_assoc, if_neg (by simp)]
    refine congrArg _ (funext fun e => ?_)
    rw [ih, List.getLast_cons (List.cons_ne_nil n init)]

/-- The open, submitted. -/
theorem fsOpenSubmitWithDirParent_eq {m : Name83} {rest : List Name83} {w : FsWorld} :
    ∃ walker, WalkerAt (pathOf (m :: rest)) rest walker ∧ walker.component83 = m.packed ∧
      fsOpenSubmitWithDirParent v.toFatDriver (pathOf (m :: rest)) outFile 0 (some cb) cctx storage w =
        ((storeParentCluster storage v.rootDirFirstCluster w.kmalloc.2).setOpenCtx w.kmalloc.1
          ⟨.parseDirSector, walker, v.rootDirFirstCluster, v.clusterToLba v.rootDirFirstCluster, 0,
            outFile, storage, 0, some cb, cctx⟩,
          .post (v.clusterToLba v.rootDirFirstCluster) (.fsOpenStep, w.kmalloc.1)) := by
  have hinit := WalkerAt.init (m :: rest) (List.cons_ne_nil m rest) [] (List.replicate 11 0)
  obtain ⟨hat, hcomponent, -⟩ := hinit.advance
  refine ⟨{ pathWalkerAdvance ⟨pathOf (m :: rest), 0, [], List.replicate 11 0⟩ with
    component83 := m.packed }, ⟨hat.fullPath, hat.hasNext, hat.drop⟩, rfl, ?_⟩
  rw [fsOpenSubmitWithDirParent]
  simp only [hcomponent, Name83.makeFat83Name_text, setInitialDir, setOpenCtx_openCtx,
    setOpenCtx_setOpenCtx, storeParentCluster_setOpenCtx, fsOpenPostIo]
  simp

/-- **What an open finds**: as `resolve` has it, but under the name before the last. -/
def Volume.finds (v : Volume) (dirs : Word → List Word) (init : List Name83) (last : Name83) :
    Option (Word × DirEntry) :=
  (v.walkDir dirs v.rootDirFirstCluster init).bind fun d =>
    (dirLookup (init.getLastD last).packed (v.dirEntries (dirs d))).map fun e => (d, e)

/-- **An open completes** with what it finds. -/
theorem ensures_open (init : List Name83) (last : Name83) {rx : Sector} {w : FsWorld}
    (h : WalkSpec v w.kmalloc.1 outFile storage cb cctx R Q I (v.finds dirs init last))
    (hwalk : v.Walkable dirs v.rootDirFirstCluster init)
    (hI : I v.rootDirFirstCluster
      (storeParentCluster storage v.rootDirFirstCluster w.kmalloc.2)) :
    Ensures (fsCode v.toFatDriver) v.disk R Q rx
      (fsOpenSubmitWithDirParent v.toFatDriver (pathOf (init ++ [last])) outFile 0 (some cb) cctx
        storage w).1
      (fsOpenSubmitWithDirParent v.toFatDriver (pathOf (init ++ [last])) outFile 0 (some cb) cctx
        storage w).2 := by
  -- the names as the walk has them: a first one, and the rest
  obtain ⟨m, rest, hnames, hdrop, hresult⟩ : ∃ m rest, init ++ [last] = m :: rest ∧
      (m :: rest).dropLast = init ∧
      v.walkFrom dirs v.rootDirFirstCluster m rest = v.finds dirs init last := by
    cases init with
    | nil => exact ⟨last, [], rfl, rfl, rfl⟩
    | cons m init =>
      refine ⟨m, init ++ [last], rfl, ?_, ?_⟩
      · rw [← List.cons_append, List.dropLast_concat]
      · rw [Volume.walkFrom_eq, Volume.finds, List.getLastD_cons, List.getLast_eq_getLastD]
  rw [← hdrop] at hwalk
  obtain ⟨walker, hat, hname, hsubmit⟩ :=
    @fsOpenSubmitWithDirParent_eq v outFile storage cctx cb m rest w
  rw [hnames, hsubmit]
  refine ensures_names h hwalk hresult hat hname (h.frame _ _ _ hI) ?_
  rw [OpenAt, setOpenCtx_openCtx]
  simp

end Walk

/-! ## Opening -/

section Opening

variable {v : Volume} {dirs : Word → List Word} {outFile storage cctx : Ptr} {w : FsWorld}

end Opening

/-! ### A file in a directory

The root of the small volume, in cluster 2, holds the directory `A`, in cluster 3, and that holds
the file `B`. -/

/-- The bytes of a directory entry. -/
def entryBytes (n : Name83) (attr cluster size : Byte) : List Byte :=
  n.packed ++ attr :: List.replicate 14 0 ++ [cluster, 0, size, 0, 0, 0]

/-- `A`. -/
def nameA : Name83 := ⟨[0x41], [], by decide, by decide, by decide, by decide⟩

/-- `B`. -/
def nameB : Name83 := ⟨[0x42], [], by decide, by decide, by decide, by decide⟩

/-- The card. -/
def treeDisk : Word → Sector
  | 1 => sectorOf [0, 0, 0, 0, 0, 0, 0, 0, 0xFF, 0xFF, 0xFF, 0x0F, 0xFF, 0xFF, 0xFF, 0x0F]
  | 10 => sectorOf (entryBytes nameA 0x10 3 0)
  | 11 => sectorOf (entryBytes nameB 0x20 4 9)
  | _ => fun _ => 0

theorem tree_chain_root : (smallVolume treeDisk).Chain 2 [2] := show Linked _ _ 2 _ by decide

end RiscyOS
