import RiscyOS.Fs.Cursor
import RiscyOS.Fs.OpenSpec

/-!
# What an executable says

An executable is a file with a header at its beginning and a table of program headers where the
header says.  `Executable` is one as the loader is to find it: with one loadable segment that is
executable, the text, one that is not, the data, and any other entries in between.  What loading it
means is `Loaded`: all headers of the table were processed, both segments are in memory, and the
process is set up to run them.

Whether the loader gets there depends on where the entries and the contents are in the file, as all
is read through one file and no seek leads back to the table.  `Executable.InStep` says when the
reading position is nevertheless where the next header is.
-/

set_option autoImplicit false

namespace RiscyOS

open Memory

/-! ## Headers in a file -/

section Load

variable {m m' : Mem} {a a' : Word}

theorem load32_shift {n : Nat} (h : ∀ i < n, m (a + BitVec.ofNat 32 i) = m' (a' + BitVec.ofNat 32 i))
    {k : Nat} (hk : k + 4 ≤ n) :
    load32 m (a + BitVec.ofNat 32 k) = load32 m' (a' + BitVec.ofNat 32 k) := by
  have hbyte : ∀ j < 4, m (a + BitVec.ofNat 32 k + BitVec.ofNat 32 j) =
      m' (a' + BitVec.ofNat 32 k + BitVec.ofNat 32 j) := by
    intro j hj
    rw [BitVec.add_assoc, BitVec.add_assoc, ← BitVec.ofNat_add]
    exact h _ (by omega)
  have h0 := hbyte 0 (by decide)
  rw [BitVec.add_zero, BitVec.add_zero] at h0
  rw [load32, load32, h0]
  exact congrArg₂ _ (congrArg₂ _ (congrArg₂ _ (hbyte 3 (by decide)) (hbyte 2 (by decide)))
    (hbyte 1 (by decide))) rfl

theorem load16_shift {n : Nat} (h : ∀ i < n, m (a + BitVec.ofNat 32 i) = m' (a' + BitVec.ofNat 32 i))
    {k : Nat} (hk : k + 2 ≤ n) :
    load16 m (a + BitVec.ofNat 32 k) = load16 m' (a' + BitVec.ofNat 32 k) := by
  have h1 : m (a + BitVec.ofNat 32 k + 1) = m' (a' + BitVec.ofNat 32 k + 1) := by
    rw [BitVec.add_assoc, BitVec.add_assoc]
    have hnext := h (k + 1) (by omega)
    rw [BitVec.ofNat_add] at hnext
    exact hnext
  rw [load16, load16, h k (by omega), h1]

/-- A header depends on its 52 bytes only. -/
theorem loadEhdr_shift (h : ∀ i < 52, m (a + BitVec.ofNat 32 i) = m' (a' + BitVec.ofNat 32 i)) :
    loadEhdr m a = loadEhdr m' a' := by
  have hident : (List.range 16).map (fun i => m (a + BitVec.ofNat 32 i)) =
      (List.range 16).map fun i => m' (a' + BitVec.ofNat 32 i) := by
    refine List.map_congr_left fun i hi => h i ?_
    have := List.mem_range.1 hi
    omega
  have h16 : ∀ k, k + 2 ≤ 52 → load16 m (a + BitVec.ofNat 32 k) = load16 m' (a' + BitVec.ofNat 32 k) :=
    fun _ => load16_shift h
  have h32 : ∀ k, k + 4 ≤ 52 → load32 m (a + BitVec.ofNat 32 k) = load32 m' (a' + BitVec.ofNat 32 k) :=
    fun _ => load32_shift h
  rw [loadEhdr, loadEhdr, hident]
  congr 1
  · exact h16 16 (by decide)
  · exact h16 18 (by decide)
  · exact h32 24 (by decide)
  · exact h32 28 (by decide)
  · exact h16 44 (by decide)

/-- A program header depends on its 32 bytes only. -/
theorem loadPhdr_shift (h : ∀ i < 32, m (a + BitVec.ofNat 32 i) = m' (a' + BitVec.ofNat 32 i)) :
    loadPhdr m a = loadPhdr m' a' := by
  have h32 : ∀ k, k + 4 ≤ 32 → load32 m (a + BitVec.ofNat 32 k) = load32 m' (a' + BitVec.ofNat 32 k) :=
    fun _ => load32_shift h
  have h0 := h32 0 (by decide)
  rw [BitVec.add_zero, BitVec.add_zero] at h0
  rw [loadPhdr, loadPhdr, h0]
  congr 1
  · exact h32 4 (by decide)
  · exact h32 8 (by decide)
  · exact h32 12 (by decide)
  · exact h32 16 (by decide)
  · exact h32 20 (by decide)
  · exact h32 24 (by decide)
  · exact h32 28 (by decide)

theorem loadEhdr_congr (h : ∀ x : Word, (x - a).toNat < 52 → m x = m' x) :
    loadEhdr m a = loadEhdr m' a :=
  loadEhdr_shift fun i hi => h _ ((add_ofNat_sub a (by omega)).trans_lt hi)

theorem loadPhdr_congr (h : ∀ x : Word, (x - a).toNat < 32 → m x = m' x) :
    loadPhdr m a = loadPhdr m' a :=
  loadPhdr_shift fun i hi => h _ ((add_ofNat_sub a (by omega)).trans_lt hi)

end Load

/-- The entry is loaded. -/
def ElfPhdr.IsLoad (ph : ElfPhdr) : Prop := ph.pType = ptLoad

instance : DecidablePred ElfPhdr.IsLoad := fun ph => inferInstanceAs (Decidable (ph.pType = ptLoad))

/-- The entry is executable. -/
def ElfPhdr.IsText (ph : ElfPhdr) : Prop := ph.pFlags &&& pfX ≠ 0

instance : DecidablePred ElfPhdr.IsText := fun ph =>
  inferInstanceAs (Decidable (ph.pFlags &&& pfX ≠ 0))

/-- Where the heap starts: the end of the segment, rounded up to 16. -/
def ElfPhdr.heapStart (ph : ElfPhdr) : Word := (ph.pVaddr + ph.pMemsz + 15) &&& ~~~15

namespace Volume

variable (v : Volume) (l : List Word)

/-- The file from position `o` on, as memory. -/
def fileMem (o : Nat) : Mem := fun a => v.fileByte l (o + a.toNat)

/-- The header of the file. -/
def ehdr : ElfEhdr := loadEhdr (v.fileMem l 0) 0

/-- Where program header `i` is stored. -/
def phdrOffset (i : Nat) : Nat := (v.ehdr l).ePhoff.toNat + 32 * i

/-- Program header `i`. -/
def phdr (i : Nat) : ElfPhdr := loadPhdr (v.fileMem l (v.phdrOffset l i)) 0

/-- How many there are. -/
def phnum : Nat := (v.ehdr l).ePhnum.toNat

theorem loadEhdr_eq {m : Mem} {a : Word}
    (h : ∀ i < 52, m (a + BitVec.ofNat 32 i) = v.fileByte l i) : loadEhdr m a = v.ehdr l := by
  refine loadEhdr_shift fun i hi => ?_
  rw [h i hi, fileMem, show (0 : Word) + BitVec.ofNat 32 i = _ from BitVec.zero_add _,
    BitVec.toNat_ofNat, Nat.mod_eq_of_lt (by omega), Nat.zero_add]

theorem loadPhdr_eq {m : Mem} {a : Word} {i : Nat}
    (h : ∀ j < 32, m (a + BitVec.ofNat 32 j) = v.fileByte l (v.phdrOffset l i + j)) :
    loadPhdr m a = v.phdr l i := by
  refine loadPhdr_shift fun j hj => ?_
  rw [h j hj, fileMem, show (0 : Word) + BitVec.ofNat 32 j = _ from BitVec.zero_add _,
    BitVec.toNat_ofNat, Nat.mod_eq_of_lt (by omega)]

end Volume

/-! ## Executables -/

/-- **An executable on a volume**: its clusters and size, and which entries of its program header
table are the text and the data. -/
structure Executable extends Volume where
  clusters : List Word
  firstCluster : Word
  size : Word
  chain : toVolume.Chain firstCluster clusters
  fits : size.toNat ≤ clusters.length * toVolume.bytesPerCluster
  text : Nat
  data : Nat
  header_le : 52 ≤ size.toNat
  table_le : toVolume.phdrOffset clusters (toVolume.phnum clusters) ≤ size.toNat
  text_lt : text < toVolume.phnum clusters
  data_lt : data < toVolume.phnum clusters
  isText : (toVolume.phdr clusters text).IsText
  not_isText : ¬ (toVolume.phdr clusters data).IsText
  /-- They are the loadable ones. -/
  isLoad_iff : ∀ i < toVolume.phnum clusters,
    (toVolume.phdr clusters i).IsLoad ↔ i = text ∨ i = data
  /-- Their contents are in the file, and no longer than the segment. -/
  contents : ∀ i, i = text ∨ i = data →
    (toVolume.phdr clusters i).pOffset.toNat < size.toNat ∧
    (toVolume.phdr clusters i).pOffset.toNat + (toVolume.phdr clusters i).pFilesz.toNat ≤
      size.toNat ∧
    (toVolume.phdr clusters i).pFilesz.toNat ≤ (toVolume.phdr clusters i).pMemsz.toNat

namespace Executable

variable (x : Executable)

/-- Its program header `i`. -/
def ph (i : Nat) : ElfPhdr := x.phdr x.clusters i

/-- Where that is stored. -/
def phOffset (i : Nat) : Nat := x.phdrOffset x.clusters i

/-- The number of program headers. -/
def num : Nat := x.phnum x.clusters

/-- A segment's contents are in the file, and no longer than the segment. -/
theorem segment {i : Nat} (h : i = x.text ∨ i = x.data) :
    (x.ph i).pOffset.toNat < x.size.toNat ∧
      (x.ph i).pOffset.toNat + (x.ph i).pFilesz.toNat ≤ x.size.toNat ∧
      (x.ph i).pFilesz.toNat ≤ (x.ph i).pMemsz.toNat := x.contents i h

/-- **The reading position keeps in step with the table.** -/
structure InStep : Prop where
  /-- The contents of a segment end where the next header begins. -/
  next : ∀ i, i + 1 < x.num → (x.ph i).IsLoad →
    (x.ph i).pOffset.toNat + (x.ph i).pFilesz.toNat = x.phOffset (i + 1)
  /-- A header that is read on from where another read ended is inside a sector. -/
  sector : ∀ i, i + 1 < x.num → ((x.ph i).IsLoad ∧ (x.ph i).pFilesz.toNat = 0) ∨
    0 < x.phOffset (i + 1) % 512 ∧ x.phOffset (i + 1) % 512 + 32 ≤ 512
  /-- No segment is in the first cluster with its header in a later one. -/
  seek : ∀ i < x.num, (x.ph i).IsLoad → (x.ph i).pOffset.toNat / x.bytesPerCluster = 0 →
    (x.phOffset i + 31) / x.bytesPerCluster = 0

/-- Segment `i` is in the memory of a region: the contents, and zeros after them. -/
structure SegmentIn (i : Nat) (r : MemoryRegion) (m : Mem) : Prop where
  size : r.regionSize = (x.ph i).pMemsz
  contents : ∀ k < (x.ph i).pFilesz.toNat, m (r.physicalBase + BitVec.ofNat 32 k) =
    x.fileByte x.clusters ((x.ph i).pOffset.toNat + k)
  zeros : ∀ k, (x.ph i).pFilesz.toNat ≤ k → k < (x.ph i).pMemsz.toNat →
    m (r.physicalBase + BitVec.ofNat 32 k) = 0

/-- **The executable is loaded** for a process, with the loader's context at `ctx`. -/
structure Loaded (ctx pcb : Ptr) (w : FsWorld) : Prop where
  processed : (w.elfCtx ctx).processed = (List.range x.num).map x.ph
  text : x.SegmentIn x.text (w.region (w.pcb pcb).ptextMemoryRegion) w.mem
  data : x.SegmentIn x.data (w.region (w.pcb pcb).pdataMemoryRegion) w.mem
  mepc : (w.pcb pcb).mepc = (x.ehdr x.clusters).eEntry
  pdataStart : (w.pcb pcb).pdataStart = (x.ph x.data).pVaddr
  heapStart : (w.pcb pcb).heapStart = (x.ph x.data).heapStart

end Executable

end RiscyOS
