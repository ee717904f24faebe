import RiscyOS.Fs.OpenSpec

/-!
# Opening a file in the root

A path of one component, with a slash before it or without, names an entry of the root directory.  The
component need not be of the form that fits a directory entry: what is looked for is whatever
`make_fat_83_name` makes of it.  The open reads the root sector by sector until it comes to an entry of
that name, to the end of the directory, or to the end of the chain, and that is as good as looking the
name up in all of its entries (`fsOpen_single`).
-/

set_option autoImplicit false

namespace RiscyOS

open Memory Callback

/-! ## Comparing names

`scanDir` compares the eleven bytes of a name as lists.  The source has `memcmp` do it, and looks at the
result only for being zero. -/

/-- `memcmp`, with `n` bytes to go from byte `i`. -/
def memcmp (p q : Nat → Byte) : Nat → Nat → Word
  | 0, _ => 0
  | n + 1, i =>
    if p i ≠ q i then (p i).setWidth 32 - (q i).setWidth 32 else memcmp p q n (i + 1)

theorem memcmp_eq_zero_iff {p q : Nat → Byte} {n i : Nat} :
    memcmp p q n i = 0 ↔ ∀ j, i ≤ j → j < i + n → p j = q j := by
  induction n generalizing i with
  | zero => exact iff_of_true rfl fun j hij hj => absurd hij (Nat.not_le.2 hj)
  | succ n ih =>
    rw [memcmp]
    by_cases hne : p i = q i
    · rw [if_neg (not_not.2 hne), ih]
      constructor
      · intro h j hij hj
        rcases Nat.eq_or_lt_of_le hij with rfl | hlt
        · exact hne
        · exact h j hlt (by omega)
      · exact fun h j hij hj => h j (by omega) (by omega)
    · rw [if_pos hne]
      refine iff_of_false (fun hzero => hne ?_) fun h => hne (h i le_rfl (by omega))
      -- zero-extended bytes differ as the bytes do
      have hsame := (BitVec.sub_eq_iff_eq_add.1 hzero).trans (BitVec.zero_add _)
      exact BitVec.eq_of_toNat_eq (by
        have hnat := congrArg BitVec.toNat hsame
        rwa [BitVec.toNat_setWidth_of_le (by decide), BitVec.toNat_setWidth_of_le (by decide)] at hnat)

theorem length_padUpper (n : Nat) (s : List Byte) : (padUpper n s).length = n := by
  rw [padUpper, List.length_rightpad, List.length_map, List.length_take]
  omega

/-- A packed name has eleven bytes. -/
theorem length_makeFat83Name (input : List Byte) : (makeFat83Name input).length = 11 := by
  rw [makeFat83Name]
  split
  · rw [List.length_append, length_padUpper, length_padUpper]
  · exact List.length_replicate

/-- **Entries are compared as `memcmp` does it.** -/
theorem dirEntry_name_ne_iff {s : Sector} {i : Nat} {input : List Byte} :
    (dirEntry s i).name ≠ makeFat83Name input ↔
      memcmp (fun j => s (32 * i + j)) (fun j => (makeFat83Name input).getD j 0) 11 0 ≠ 0 := by
  have hname := length_makeFat83Name input
  rw [Ne, Ne, not_iff_not, memcmp_eq_zero_iff, List.ext_getElem_iff]
  simp only [dirEntry, List.length_map, List.length_range, List.getElem_map, List.getElem_range]
  constructor
  · rintro ⟨-, h⟩ j - hj
    rw [h j (by omega) (by omega), List.getD_eq_getElem?_getD, List.getElem?_eq_getElem (by omega),
      Option.getD_some]
  · refine fun h => ⟨hname.symm, fun j hj hj' => ?_⟩
    rw [h j (Nat.zero_le j) (by omega), List.getD_eq_getElem?_getD, List.getElem?_eq_getElem (by omega),
      Option.getD_some]

/-! ## Paths of one component -/

/-- A component of a path: the characters of a string, as many as the walker holds, without a slash. -/
structure IsComponent (c : List Byte) : Prop where
  ne_nil : c ≠ []
  length_le : c.length ≤ 12
  zero_notMem : 0 ∉ c
  slash_notMem : slash ∉ c

/-- The paths of one component. -/
def SinglePath (path c : List Byte) : Prop := path = c ∨ path = slash :: c

/-- The component of such a path, and nothing after it. -/
theorem getNextPathComponent_single {path c : List Byte} (hc : IsComponent c)
    (hpath : SinglePath path c) : getNextPathComponent path = some (c, []) := by
  have hstrip : (if path.head? = some slash then path.tail else path) = c := by
    rcases hpath with rfl | rfl
    · refine if_neg fun hhead => hc.slash_notMem ?_
      exact List.mem_of_mem_head? hhead
    · exact if_pos rfl
  have hall : ∀ b ∈ c, decide (b ≠ slash) = true := fun b hb =>
    decide_eq_true fun h => hc.slash_notMem (h ▸ hb)
  rw [getNextPathComponent, hstrip]
  simp only [if_neg hc.ne_nil]
  rw [List.takeWhile_eq_self_iff.2 hall, List.dropWhile_eq_nil_iff.2 hall]

section Single

variable {v : Volume} {path c : List Byte} {outFile storage cctx : Ptr} {cb : FsCallback} {w : FsWorld}

/-- The open of such a path, submitted: the component is packed, and the walker has nothing left. -/
theorem fsOpenSubmitWithDirParent_single (hc : IsComponent c) (hpath : SinglePath path c) :
    fsOpenSubmitWithDirParent v.toFatDriver path outFile 0 (some cb) cctx storage w =
      ((storeParentCluster storage v.rootDirFirstCluster w.kmalloc.2).setOpenCtx w.kmalloc.1
        ⟨.parseDirSector, ⟨path, -1, c, makeFat83Name c⟩, v.rootDirFirstCluster,
          v.clusterToLba v.rootDirFirstCluster, 0, outFile, storage, 0, some cb, cctx⟩,
        .post (v.clusterToLba v.rootDirFirstCluster) (.fsOpenStep, w.kmalloc.1)) := by
  have hadvance : pathWalkerAdvance ⟨path, 0, [], List.replicate 11 0⟩ =
      ⟨path, -1, c, List.replicate 11 0⟩ := by
    rw [pathWalkerAdvance, show path.drop (0 : Int).toNat = path from rfl,
      getNextPathComponent_single hc hpath]
    rfl
  rw [fsOpenSubmitWithDirParent]
  simp only [hadvance, setInitialDir, setOpenCtx_openCtx, setOpenCtx_setOpenCtx,
    storeParentCluster_setOpenCtx, fsOpenPostIo]
  simp

end Single

/-- What the others may do while a request of an open is outstanding: anything that leaves its context and
the file to be filled alone. -/
def OpenRely (outFile : Ptr) (k : FsClosure) (w w' : FsWorld) : Prop :=
  w'.openCtx k.2 = w.openCtx k.2 ∧ w'.file outFile = w.file outFile

/-- How an open ends that has found `r`: with the file filled from that entry, or untouched. -/
def SingleDone (outFile : Ptr) (f : File) (r : Option DirEntry) (w : FsWorld) (status : Int) : Prop :=
  match r with
  | some e => status = 0 ∧ w.file outFile = ⟨0, e.cluster, e.cluster, 0, 0, 0, e.fileSize⟩
  | none => status = -1 ∧ w.file outFile = f

/-- **A path of one component is looked up in the root.**  For every volume, every chain of clusters that
its root directory is stored in and every component, with a slash before it or without: the open calls
back with status zero if and only if, before the first entry that ends the directory, there is one in
use that has the packed name; then the file is filled from the first such entry, and otherwise it is
left as it was and the status is `-1`. -/
theorem fsOpen_single (v : Volume) (l : List Word) (path c : List Byte) (outFile storage : Ptr)
    (cb : FsCallback) (cctx : Ptr) (rx : Sector) (w : FsWorld)
    (hchain : v.Chain v.rootDirFirstCluster l) (hl : l ≠ []) (hc : IsComponent c)
    (hpath : SinglePath path c) :
    Ensures (fsCode v.toFatDriver) v.disk (OpenRely outFile)
      (fun w' k status => k = (cb, cctx) ∧ SingleDone outFile (w.file outFile)
        (dirLookup (makeFat83Name c) (v.dirEntries l)) w' status) rx
      (fsOpenSubmitWithDirParent v.toFatDriver path outFile 0 (some cb) cctx storage w).1
      (fsOpenSubmitWithDirParent v.toFatDriver path outFile 0 (some cb) cctx storage w).2 := by
  obtain ⟨c₀, l, rfl⟩ := List.exists_cons_of_ne_nil hl
  obtain rfl : v.rootDirFirstCluster = c₀ := hchain.1
  rw [fsOpenSubmitWithDirParent_single hc hpath]
  have hspec : LookupSpec v w.kmalloc.1 outFile storage cb cctx ⟨path, -1, c, makeFat83Name c⟩
      (OpenRely outFile) (fun w' k status => k = (cb, cctx) ∧ SingleDone outFile (w.file outFile)
        (dirLookup (makeFat83Name c) (v.dirEntries (v.rootDirFirstCluster :: l))) w' status)
      (fun w' => w'.file outFile = w.file outFile)
      (dirLookup (makeFat83Name c) (v.dirEntries (v.rootDirFirstCluster :: l))) := by
    refine ⟨fun w₁ w₂ h => ⟨h.1, h.2.trans⟩, fun _ _ => id, fun e he rx w₁ _ _ _ hctx hscan => ?_,
      fun hnone rx w₁ hI => .done ⟨rfl, ?_⟩⟩
    · rw [fsOpenStep_done hctx hscan rfl]
      refine .done ⟨rfl, ?_⟩
      rw [he]
      exact ⟨rfl, setFile_file ..⟩
    · rw [hnone]
      exact ⟨rfl, hI⟩
  refine ensures_lookup hspec hchain rfl ?_ ?_
  · change (storeParentCluster storage v.rootDirFirstCluster w.kmalloc.2).file outFile = _
    rw [storeParentCluster_eq]
    rfl
  · rw [OpenAt, setOpenCtx_openCtx]
    simp

/-- `A` is opened. -/
theorem fsOpen_single_found :
    Ensures (fsCode smallDriver) treeDisk (OpenRely 0x100)
      (fun w' k status => k = (.client, 0) ∧ SingleDone 0x100 (emptyWorld.file 0x100)
        (dirLookup (makeFat83Name [0x41]) ((smallVolume treeDisk).dirEntries [2])) w' status)
      (fun _ => 0)
      (fsOpenSubmitWithDirParent smallDriver [0x41] 0x100 0 (some .client) 0 0x200 emptyWorld).1
      (fsOpenSubmitWithDirParent smallDriver [0x41] 0x100 0 (some .client) 0 0x200 emptyWorld).2 :=
  fsOpen_single (smallVolume treeDisk) [2] [0x41] [0x41] 0x100 0x200 .client 0 (fun _ => 0) emptyWorld
    tree_chain_root (by decide) ⟨by decide, by decide, by decide, by decide⟩ (Or.inl rfl)

end RiscyOS
