import Mathlib.Data.List.TakeWhile
import RiscyOS.Fs.Open

/-!
# What a path means

A path is a list of names, each of the form that fits a directory entry, and a directory is a list
of entries.  Looking a name up means the first entry that is in use and carries the packed name,
among the entries before the one that ends the directory; walking a path means to look up one name
after another, each in the directory that the one before led to.  None of this knows about sectors
being read one at a time, nor about the state of a path walker: it is what `fs_open` is for.

The directories of a volume are given by `dirs`, the chain of clusters for each first cluster.
-/

set_option autoImplicit false

namespace RiscyOS

open Memory

/-! ## Names -/

/-- A name of up to eight characters with an extension of up to three. -/
structure Name83 where
  base : List Byte
  ext : List Byte
  base_ne_nil : base ≠ []
  base_length : base.length ≤ 8
  ext_length : ext.length ≤ 3
  valid : ∀ c ∈ base ++ ext, fatValidChar c = true ∧ c ≠ dot

namespace Name83

variable (n : Name83)

/-- The name as it is written. -/
def text : List Byte := if n.ext = [] then n.base else n.base ++ dot :: n.ext

/-- The name as it is stored in a directory entry. -/
def packed : List Byte :=
  (n.base.map toupper).rightpad 8 0x20 ++ (n.ext.map toupper).rightpad 3 0x20

theorem ne_slash {c : Byte} (hc : c ∈ n.base ++ n.ext) : c ≠ slash := by
  rintro rfl
  exact absurd (n.valid _ hc).1 (by decide)

theorem text_ne_nil : n.text ≠ [] := by
  rw [text]
  split
  · exact n.base_ne_nil
  · simp

theorem slash_notMem_text : slash ∉ n.text := by
  intro h
  rw [text] at h
  split at h
  · exact n.ne_slash (List.mem_append_left _ h) rfl
  · rcases List.mem_append.1 h with h | h
    · exact n.ne_slash (List.mem_append_left _ h) rfl
    · rcases List.mem_cons.1 h with h | h
      · exact absurd h (by decide)
      · exact n.ne_slash (List.mem_append_right _ h) rfl

theorem splitExt_text : splitExt n.text = (n.base, n.ext) := by
  obtain ⟨c, rest, hbase⟩ := List.exists_cons_of_ne_nil n.base_ne_nil
  have hrest : ∀ b ∈ rest, decide (b ≠ dot) = true := fun b hb =>
    decide_eq_true (n.valid b (by rw [hbase]; simp [hb])).2
  rw [text]
  split
  · rename_i hext
    rw [hbase, splitExt, List.takeWhile_eq_self_iff.2 hrest, List.dropWhile_eq_nil_iff.2 hrest, hext]
    rfl
  · rw [hbase, List.cons_append, splitExt, List.takeWhile_append_of_pos hrest,
      List.dropWhile_append_of_pos hrest]
    simp

/-- **The name is packed as it should be.** -/
theorem makeFat83Name_text : makeFat83Name n.text = n.packed := by
  have hbase : n.base.all fatValidChar = true :=
    List.all_eq_true.2 fun c hc => (n.valid c (List.mem_append_left _ hc)).1
  have hext : n.ext.all fatValidChar = true :=
    List.all_eq_true.2 fun c hc => (n.valid c (List.mem_append_right _ hc)).1
  rw [makeFat83Name, splitExt_text]
  simp only [hbase, hext, Bool.and_self, if_true]
  rw [padUpper, padUpper, List.take_of_length_le n.base_length, List.take_of_length_le n.ext_length,
    packed]

end Name83

/-- The path of the names, from the root. -/
def pathOf (ns : List Name83) : List Byte := ns.flatMap fun n => slash :: n.text

theorem pathOf_cons (n : Name83) (ns : List Name83) :
    pathOf (n :: ns) = slash :: (n.text ++ pathOf ns) := rfl

theorem pathOf_eq_nil_iff {ns : List Name83} : pathOf ns = [] ↔ ns = [] := by
  cases ns with
  | nil => exact iff_of_true rfl rfl
  | cons n ns => exact iff_of_false nofun nofun

/-- **The first component of a path** is its first name. -/
theorem getNextPathComponent_pathOf (n : Name83) (ns : List Name83) :
    getNextPathComponent (pathOf (n :: ns)) = some (n.text, pathOf ns) := by
  have htext : ∀ b ∈ n.text, decide (b ≠ slash) = true := fun b hb =>
    decide_eq_true fun h => n.slash_notMem_text (h ▸ hb)
  have hhead : (slash :: (n.text ++ pathOf ns)).head? = some slash := rfl
  have hne : n.text ++ pathOf ns ≠ [] := fun h => n.text_ne_nil (List.append_eq_nil_iff.1 h).1
  have hstop : (pathOf ns).takeWhile (· ≠ slash) = [] ∧
      (pathOf ns).dropWhile (· ≠ slash) = pathOf ns := by
    cases ns with
    | nil => exact ⟨rfl, rfl⟩
    | cons m ms => exact ⟨by rw [pathOf_cons]; simp, by rw [pathOf_cons]; simp⟩
  rw [pathOf_cons, getNextPathComponent, if_pos hhead, List.tail_cons]
  simp only [if_neg hne]
  rw [List.takeWhile_append_of_pos htext, List.dropWhile_append_of_pos htext, hstop.1, hstop.2,
    List.append_nil]

/-! ## Directories -/

/-- An entry that is neither free nor part of a long name. -/
def DirEntry.InUse (e : DirEntry) : Prop := e.name.head? ≠ some 0xE5 ∧ e.attr &&& 0x0F ≠ 0x0F

instance : DecidablePred DirEntry.InUse := fun _ => inferInstanceAs (Decidable (_ ∧ _))

/-- The entry that ends a directory. -/
def DirEntry.IsLast (e : DirEntry) : Prop := e.name.head? = some 0

instance : DecidablePred DirEntry.IsLast := fun e =>
  inferInstanceAs (Decidable (e.name.head? = some 0))

/-- What an entry leads to. -/
def DirEntry.target (e : DirEntry) : Word × Word := (e.cluster, e.fileSize)

/-- **Looking up a name** in a directory. -/
def dirLookup (name : List Byte) (entries : List DirEntry) : Option DirEntry :=
  (entries.takeWhile fun e => ¬ e.IsLast).find? fun e => e.InUse ∧ e.name = name

/-- The entries in a sector. -/
def sectorEntries (s : Sector) : List DirEntry := (List.range entriesPerSector).map (dirEntry s)

namespace Volume

variable (v : Volume)

/-- The sectors of a cluster. -/
def clusterSectors (c : Word) : List Sector :=
  (List.range v.sectorsPerCluster.toNat).map fun j => v.disk (v.clusterToLba c + BitVec.ofNat 32 j)

/-- The entries of the directory whose clusters are `l`. -/
def dirEntries (l : List Word) : List DirEntry :=
  (l.flatMap v.clusterSectors).flatMap sectorEntries

variable (dirs : Word → List Word)

/-- The directory that the names lead to, from the one at cluster `c`. -/
def walkDir : Word → List Name83 → Option Word
  | c, [] => some c
  | c, n :: ns => (dirLookup n.packed (v.dirEntries (dirs c))).bind fun e => walkDir e.cluster ns

/-- **What a path means**: the directory that all names but the last lead to from the root, and the
entry of the last name there. -/
def resolve (init : List Name83) (last : Name83) : Option (Word × DirEntry) :=
  (v.walkDir dirs v.rootDirFirstCluster init).bind fun d =>
    (dirLookup last.packed (v.dirEntries (dirs d))).map fun e => (d, e)

/-- The directories on the way are there: each has a chain of clusters. -/
def Walkable : Word → List Name83 → Prop
  | c, [] => v.Chain c (dirs c) ∧ dirs c ≠ []
  | c, n :: ns => (v.Chain c (dirs c) ∧ dirs c ≠ []) ∧
      ∀ e, dirLookup n.packed (v.dirEntries (dirs c)) = some e → Walkable e.cluster ns

end Volume

/-! ## Reading a directory sector by sector -/

/-- The loop of `fs_open_step` over the entries of a sector, on a list of them. -/
def scanEntries (name : List Byte) : List DirEntry → DirScan
  | [] => .noMatch
  | e :: es =>
    if e.IsLast then .endOfDir
    else if e.InUse ∧ e.name = name then .found e
    else scanEntries name es

theorem dirEntry_isLast {s : Sector} {i : Nat} : (dirEntry s i).IsLast ↔ s (32 * i) = 0 :=
  Option.some_inj

theorem dirEntry_inUse {s : Sector} {i : Nat} :
    (dirEntry s i).InUse ↔ s (32 * i) ≠ 0xE5 ∧ (dirEntry s i).attr &&& 0x0F ≠ 0x0F :=
  and_congr_left' (not_congr Option.some_inj)

theorem scanDir_eq (s : Sector) (name : List Byte) (n i : Nat) :
    scanDir s name n i = scanEntries name ((List.range' i n).map (dirEntry s)) := by
  induction n generalizing i with
  | zero => rfl
  | succ n ih =>
    rw [scanDir, List.range'_succ, List.map_cons, scanEntries, ← ih]
    by_cases hlast : s (32 * i) = 0
    · rw [if_pos hlast, if_pos (dirEntry_isLast.2 hlast)]
    rw [if_neg hlast, if_neg (mt dirEntry_isLast.1 hlast)]
    by_cases hfree : s (32 * i) = 0xE5
    · rw [if_pos hfree, if_neg fun h => (dirEntry_inUse.1 h.1).1 hfree]
    rw [if_neg hfree]
    by_cases hlfn : (dirEntry s i).attr &&& 0x0F = 0x0F
    · rw [if_pos hlfn, if_neg fun h => (dirEntry_inUse.1 h.1).2 hlfn]
    rw [if_neg hlfn]
    by_cases hname : (dirEntry s i).name = name
    · rw [if_neg (not_not.2 hname), if_pos ⟨dirEntry_inUse.2 ⟨hfree, hlfn⟩, hname⟩]
    · rw [if_pos hname, if_neg fun h => hname h.2]

/-- **One sector at a time** is as good as the whole directory. -/
theorem dirLookup_append (name : List Byte) (es es' : List DirEntry) :
    dirLookup name (es ++ es') =
      match scanEntries name es with
      | .endOfDir => none
      | .found e => some e
      | .noMatch => dirLookup name es' := by
  induction es with
  | nil => rfl
  | cons e es ih =>
    rw [scanEntries, dirLookup, List.cons_append]
    by_cases hlast : e.IsLast
    · rw [if_pos hlast, List.takeWhile_cons_of_neg (by simpa using hlast)]
      rfl
    · rw [if_neg hlast, List.takeWhile_cons_of_pos (by simpa using hlast)]
      by_cases hmatch : e.InUse ∧ e.name = name
      · rw [if_pos hmatch, List.find?_cons_of_pos (by simpa using hmatch)]
      · rw [if_neg hmatch, List.find?_cons_of_neg (by simpa using hmatch)]
        exact ih

end RiscyOS
