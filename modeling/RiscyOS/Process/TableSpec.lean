import Mathlib.Data.List.Pairwise
import RiscyOS.Process.Table

/-!
# What a step of the process table does

One lemma for each function of `RiscyOS.Process.Table`, saying what it leaves alone.

* `Kernel.Placed` — the PCBs and region records handed out are apart from one another.  It holds in
  every state (`Kernel.Step.placed`), because it is the allocators' promise and no more.
* `Kernel.Outside` — a run of bytes is in no PCB handed out.  The reference count at the end of a stray
  pointer need not be, so this is a hypothesis of most lemmas below.
* `Kernel.Same` — between two states the PCBs of the first hold the same links, region pointers and
  process ids.  Most functions keep all of these; `fork` and `elf_finish` say which they change.
-/

set_option autoImplicit false

namespace RiscyOS

open Memory

instance : Std.Symm fun p q : Ptr => (pcbSpan p).Apart (pcbSpan q) := ⟨fun _ _ h => h.symm⟩

instance : Std.Symm fun r q : Ptr => (regionSpan r).Apart (regionSpan q) := ⟨fun _ _ h => h.symm⟩

namespace Kernel

variable {s t u : Kernel} {p q r : Ptr} {m m' : Mem} {S : List Span}

/-! ## Places -/

/-- The records handed out are apart from one another and from the kernel image. -/
structure Placed (s : Kernel) : Prop where
  pcbs : s.pcbs.Pairwise fun p q => (pcbSpan p).Apart (pcbSpan q)
  regions : s.regions.Pairwise fun r q => (regionSpan r).Apart (regionSpan q)
  cross : ∀ p ∈ s.pcbs, ∀ r ∈ s.regions, (pcbSpan p).Apart (regionSpan r)
  pcbs_low : ∀ p ∈ s.pcbs, (pcbSpan p).Apart lowSpan
  regions_low : ∀ r ∈ s.regions, (regionSpan r).Apart lowSpan

/-- The bytes `b` are in no PCB. -/
def Outside (s : Kernel) (b : Span) : Prop := ∀ p ∈ s.pcbs, (pcbSpan p).Apart b

instance (s : Kernel) (b : Span) : Decidable (s.Outside b) := List.decidableBAll _ _

/-- The reference count that `r` leads to is in no PCB. -/
def RegionOutside (s : Kernel) (r : Ptr) : Prop :=
  r = null ∨ s.Outside (part r memoryRegionRefCount 4)

instance (s : Kernel) (r : Ptr) : Decidable (s.RegionOutside r) := inferInstanceAs (Decidable (_ ∨ _))

/-- A record in the heap is not at address 0. -/
theorem ne_null_of_apart_low {n : Nat} (h : (Span.mk p n).Apart lowSpan) (hn : 0 < n) : p ≠ null := by
  rintro rfl
  exact h 0 (by simpa [Span.Has, null] using hn) (by decide)

/-- A run of bytes that is not empty is not apart from itself. -/
theorem not_apart_self {b : Span} (hb : 0 < b.size) : ¬ b.Apart b := fun h => by
  have hbase : b.Has b.base := by
    rw [Span.Has, BitVec.sub_self]
    exact hb
  exact h _ hbase hbase

namespace Placed

theorem null_notMem (h : s.Placed) : null ∉ s.pcbs := fun hmem =>
  ne_null_of_apart_low (h.pcbs_low _ hmem) (by decide) rfl

theorem null_notMem_regions (h : s.Placed) : null ∉ s.regions := fun hmem =>
  ne_null_of_apart_low (h.regions_low _ hmem) (by decide) rfl

theorem nodup (h : s.Placed) : s.pcbs.Nodup := by
  refine h.pcbs.imp fun {p q} hpq => ?_
  rintro rfl
  exact not_apart_self (Nat.succ_pos _) hpq

theorem nodup_regions (h : s.Placed) : s.regions.Nodup := by
  refine h.regions.imp fun {p q} hpq => ?_
  rintro rfl
  exact not_apart_self (Nat.succ_pos _) hpq

theorem apart (h : s.Placed) (hp : p ∈ s.pcbs) (hq : q ∈ s.pcbs) (hpq : p ≠ q) :
    (pcbSpan p).Apart (pcbSpan q) :=
  h.pcbs.forall hp hq hpq

/-- Different fields of PCBs, of the same or of two. -/
theorem part_apart (h : s.Placed) (hp : p ∈ s.pcbs) (hq : q ∈ s.pcbs) {i j a b : Nat}
    (hij : i + a ≤ j ∨ j + b ≤ i) (hi : i + a ≤ pcbSize) (hj : j + b ≤ pcbSize) :
    (part p i a).Apart (part q j b) := by
  by_cases hpq : p = q
  · subst hpq
    exact Memory.part_apart hij (hi.trans (by decide)) (hj.trans (by decide))
  · exact (h.apart hp hq hpq).part hi hj

/-- The count of a region handed out is in no PCB. -/
theorem regionOutside (h : s.Placed) (hr : r = null ∨ r ∈ s.regions) : s.RegionOutside r := by
  rcases hr with hr | hr
  · exact Or.inl hr
  · refine Or.inr fun p hp x hx hx' => h.cross p hp r hr x hx ?_
    exact has_of_part hx' (by decide)

/-- In no PCB either if the pointer is null: there the kernel image is. -/
theorem outside_count (h : s.Placed) (hr : s.RegionOutside r) :
    s.Outside (part r memoryRegionRefCount 4) := by
  rcases hr with rfl | hr
  · exact fun p hp x hx hx' => h.pcbs_low p hp x hx (has_of_part hx' (by decide))
  · exact hr

theorem congr (h : s.Placed) (hp : t.pcbs = s.pcbs) (hr : t.regions = s.regions) : t.Placed := by
  constructor
  · rw [hp]
    exact h.pcbs
  · rw [hr]
    exact h.regions
  · rw [hp, hr]
    exact h.cross
  · rw [hp]
    exact h.pcbs_low
  · rw [hr]
    exact h.regions_low

/-- Giving back leaves the rest in place. -/
theorem sublist (h : s.Placed) (hp : t.pcbs.Sublist s.pcbs) (hr : t.regions.Sublist s.regions) :
    t.Placed where
  pcbs := h.pcbs.sublist hp
  regions := h.regions.sublist hr
  cross p hp' r hr' := h.cross p (hp.subset hp') r (hr.subset hr')
  pcbs_low p hp' := h.pcbs_low p (hp.subset hp')
  regions_low r hr' := h.regions_low r (hr.subset hr')

/-- A PCB is handed out. -/
theorem cons_pcb (h : s.Placed) (hg : s.Grants p pcbSize) (hne : p ≠ null) (hp : t.pcbs = p :: s.pcbs)
    (hr : t.regions = s.regions) : t.Placed := by
  obtain ⟨hlow, hpcbs, hregions⟩ := hg.resolve_left hne
  constructor
  · rw [hp]
    exact List.pairwise_cons.2 ⟨hpcbs, h.pcbs⟩
  · rw [hr]
    exact h.regions
  · rw [hp, hr]
    exact List.forall_mem_cons.2 ⟨hregions, h.cross⟩
  · rw [hp]
    exact List.forall_mem_cons.2 ⟨hlow, h.pcbs_low⟩
  · rw [hr]
    exact h.regions_low

/-- A region record is handed out. -/
theorem cons_region (h : s.Placed) (hg : s.Grants r memoryRegionStructSize) (hne : r ≠ null)
    (hp : t.pcbs = s.pcbs) (hr : t.regions = r :: s.regions) : t.Placed := by
  obtain ⟨hlow, hpcbs, hregions⟩ := hg.resolve_left hne
  constructor
  · rw [hp]
    exact h.pcbs
  · rw [hr]
    exact List.pairwise_cons.2 ⟨hregions, h.regions⟩
  · rw [hp, hr]
    exact fun p hp => List.forall_mem_cons.2 ⟨(hpcbs p hp).symm, h.cross p hp⟩
  · rw [hp]
    exact h.pcbs_low
  · rw [hr]
    exact List.forall_mem_cons.2 ⟨hlow, h.regions_low⟩

end Placed

/-! ## Fields that stay the same -/

/-- The bytes `b` are apart from the field of `n` bytes at `i` in every PCB. -/
def Spares (s : Kernel) (i n : Nat) (b : Span) : Prop := ∀ p ∈ s.pcbs, b.Apart (part p i n)

theorem Outside.spares {b : Span} (h : s.Outside b) {i n : Nat} (hi : i + n ≤ pcbSize) :
    s.Spares i n b := fun p hp x hb hx => h p hp x (has_of_part hx hi) hb

theorem Placed.spares (h : s.Placed) (hq : q ∈ s.pcbs) {i j a b : Nat} (hij : i + a ≤ j ∨ j + b ≤ i)
    (hi : i + a ≤ pcbSize) (hj : j + b ≤ pcbSize) : s.Spares j b (part q i a) :=
  fun _ hp => h.part_apart hq hp hij hi hj

/-- The bytes `b` hold no link, no pointer to a region and no process id. -/
structure SparesTable (s : Kernel) (b : Span) : Prop where
  next : s.Spares pcbNext 4 b
  ptext : s.Spares pcbPtextMemoryRegion 4 b
  pdata : s.Spares pcbPdataMemoryRegion 4 b
  pid : s.Spares pcbPid 1 b

theorem Outside.sparesTable {b : Span} (h : s.Outside b) : s.SparesTable b :=
  ⟨h.spares (by decide), h.spares (by decide), h.spares (by decide), h.spares (by decide)⟩

/-- The other fields of a PCB, by their offsets. -/
def OtherField (i n : Nat) : Prop :=
  i + n ≤ 132 ∨ 136 ≤ i ∧ i + n ≤ 144 ∨ 152 ≤ i ∧ i + n ≤ 164 ∨ 165 ≤ i ∧ i + n ≤ 172

theorem Placed.sparesTable (h : s.Placed) (hq : q ∈ s.pcbs) {i n : Nat} (hi : OtherField i n) :
    s.SparesTable (part q i n) := by
  rw [OtherField] at hi
  refine ⟨h.spares hq ?_ ?_ ?_, h.spares hq ?_ ?_ ?_, h.spares hq ?_ ?_ ?_, h.spares hq ?_ ?_ ?_⟩ <;>
    simp only [pcbNext, pcbPtextMemoryRegion, pcbPdataMemoryRegion, pcbPid, pcbSize] <;> omega

/-- The links, the pointers to regions and the process ids are those of `s`. -/
structure Same (s t : Kernel) : Prop where
  next : ∀ p ∈ s.pcbs, t.next p = s.next p
  ptext : ∀ p ∈ s.pcbs, t.ptext p = s.ptext p
  pdata : ∀ p ∈ s.pcbs, t.pdata p = s.pdata p
  pid : ∀ p ∈ s.pcbs, t.pid p = s.pid p

/-- **What spares the table keeps it.** -/
theorem Same.of_alters (h : Alters S s.mem t.mem) (hS : ∀ b ∈ S, s.SparesTable b) : s.Same t where
  next p hp := h.word fun b hb => (hS b hb).next p hp
  ptext p hp := h.word fun b hb => (hS b hb).ptext p hp
  pdata p hp := h.word fun b hb => (hS b hb).pdata p hp
  pid p hp := h.byte fun b hb => (hS b hb).pid p hp

theorem Same.refl (s : Kernel) : s.Same s := ⟨fun _ _ => rfl, fun _ _ => rfl, fun _ _ => rfl, fun _ _ => rfl⟩

theorem Same.trans (h : s.Same t) (h' : t.Same u) (hsub : s.pcbs ⊆ t.pcbs) : s.Same u where
  next p hp := (h'.next p (hsub hp)).trans (h.next p hp)
  ptext p hp := (h'.ptext p (hsub hp)).trans (h.ptext p hp)
  pdata p hp := (h'.pdata p (hsub hp)).trans (h.pdata p hp)
  pid p hp := (h'.pid p (hsub hp)).trans (h.pid p hp)

/-! ## The functions -/

/-- Only the memory and the region records differ. -/
structure SameBooks (s t : Kernel) : Prop where
  currentPcb : t.currentPcb = s.currentPcb
  kidle : t.kidle = s.kidle
  csr : t.csr = s.csr
  pcbNextPid : t.pcbNextPid = s.pcbNextPid
  pcbs : t.pcbs = s.pcbs
  loads : t.loads = s.loads
  requests : t.requests = s.requests
  exited : t.exited = s.exited
  blocked : t.blocked = s.blocked

theorem SameBooks.trans (h : s.SameBooks t) (h' : t.SameBooks u) : s.SameBooks u where
  currentPcb := h'.currentPcb.trans h.currentPcb
  kidle := h'.kidle.trans h.kidle
  csr := h'.csr.trans h.csr
  pcbNextPid := h'.pcbNextPid.trans h.pcbNextPid
  pcbs := h'.pcbs.trans h.pcbs
  loads := h'.loads.trans h.loads
  requests := h'.requests.trans h.requests
  exited := h'.exited.trans h.exited
  blocked := h'.blocked.trans h.blocked

theorem SameBooks.of_mem (s : Kernel) (m : Mem) (rs l : List Ptr) :
    s.SameBooks { s with mem := m, regions := rs, released := l } :=
  ⟨rfl, rfl, rfl, rfl, rfl, rfl, rfl, rfl, rfl⟩

theorem aquireMemorySegment_alters (m : Mem) (a0 : Ptr) :
    Alters [part a0 memoryRegionRefCount 4] m (aquireMemorySegment m a0) := by
  rw [aquireMemorySegment]
  split
  · exact Alters.refl _ _
  · exact alters_setWord _ _ _ _

section Release

variable (s : Kernel) (a0 : Ptr)

theorem releaseMemorySegment_alters :
    Alters [part a0 memoryRegionRefCount 4] s.mem (s.releaseMemorySegment a0).mem := by
  rw [releaseMemorySegment]
  split
  · exact Alters.refl _ _
  · simp only
    split
    · exact Alters.refl _ _
    · exact alters_setWord _ _ _ _

theorem releaseMemorySegment_books : s.SameBooks (s.releaseMemorySegment a0) := by
  rw [releaseMemorySegment]
  split
  · exact .of_mem _ _ _ _
  · simp only
    split <;> exact .of_mem _ _ _ _

theorem releaseMemorySegment_regions : (s.releaseMemorySegment a0).regions.Sublist s.regions := by
  rw [releaseMemorySegment]
  split
  · exact List.Sublist.refl _
  · simp only
    split
    · exact List.erase_sublist
    · exact List.Sublist.refl _

/-- A null pointer is not followed, and otherwise the count is outside. -/
theorem releaseMemorySegment_same (h : s.RegionOutside a0) : s.Same (s.releaseMemorySegment a0) := by
  rcases h with rfl | h
  · rw [releaseMemorySegment, if_pos rfl]
    exact Same.refl s
  · exact Same.of_alters (releaseMemorySegment_alters s a0) (List.forall_mem_singleton.2 h.sparesTable)

end Release

theorem memcpy_alters (m : Mem) (a b : Word) (n : Nat) : Alters [⟨b, n⟩] m (memcpy m a b n) := by
  induction n generalizing m a b with
  | zero => exact Alters.refl _ _
  | succ n ih =>
    rw [memcpy]
    have hmem := List.mem_singleton_self (Span.mk b (n + 1))
    refine ((Alters.of_store8 m b (m a)).mono ?_).trans ((ih _ _ _).mono ?_)
    · rw [← part_zero]
      exact List.forall_mem_singleton.2 (.part hmem (by omega))
    · exact List.forall_mem_singleton.2 (Covered.part (i := 1) hmem (by omega))

/-- **A byte copied** is the source's, if the copy does not overwrite that first. -/
theorem memcpy_apply {m : Mem} {a b : Word} {n i : Nat} (hi : i < n) (hn : n ≤ 2 ^ 32)
    (h : ¬ (Span.mk b n).Has (a + BitVec.ofNat 32 i)) :
    memcpy m a b n (b + BitVec.ofNat 32 i) = m (a + BitVec.ofNat 32 i) := by
  induction n generalizing m a b i with
  | zero => exact absurd hi (Nat.not_lt_zero _)
  | succ n ih =>
    rw [memcpy]
    rcases i with _ | i
    · -- the first byte is not written again
      rw [memcpy_alters _ _ _ _ _ ?_]
      · simp [store8]
      · refine List.forall_mem_singleton.2 fun hx => ?_
        rw [Span.Has] at hx
        simp only at hx
        bv_omega
    · have hsucc : ∀ x : Word, x + BitVec.ofNat 32 (i + 1) = x + 1 + BitVec.ofNat 32 i := by
        intro x
        rw [BitVec.ofNat_add, BitVec.add_assoc, BitVec.add_comm (BitVec.ofNat 32 i)]
        rfl
      rw [hsucc, hsucc] at *
      rw [ih (Nat.lt_of_succ_lt_succ hi) (Nat.le_of_succ_le hn) ?_]
      · refine if_neg ?_
        intro heq
        refine h ?_
        rw [heq, Span.Has, BitVec.sub_self]
        exact Nat.succ_pos n
      · intro hx
        exact h (has_of_part (i := 1) hx (Nat.le_of_eq (Nat.add_comm _ _)))

/-! ### Fork -/

section ForkStores

variable {csr : Csr} {s0 : Ptr} {g : ForkGrants}

theorem forkStores_alters (m : Mem) (csr : Csr) (hn : g.a2.toNat ≤ pcbSize) :
    Alters [pcbSpan g.pcb, part s0 tfA0 4, part s0 pcbNext 4] m (forkStores m csr s0 g) := by
  have hcopy : Alters [pcbSpan g.pcb, part s0 tfA0 4, part s0 pcbNext 4] m
      (memcpy m s0 g.pcb g.a2.toNat) := by
    refine (memcpy_alters m s0 g.pcb g.a2.toNat).mono (List.forall_mem_singleton.2 ?_)
    rw [← part_zero]
    exact .part List.mem_cons_self (by rw [Nat.zero_add]; exact hn)
  have hchild : ∀ {i n : Nat}, i + n ≤ pcbSize →
      Covered [pcbSpan g.pcb, part s0 tfA0 4, part s0 pcbNext 4] (part g.pcb i n) :=
    fun hi => .part List.mem_cons_self hi
  simp only [forkStores]
  refine (((((((hcopy.setWord ?_).setWord ?_).setByte ?_).setWord ?_).setWord ?_).setByte
    ?_).setWord ?_).setWord ?_
  · exact .of_mem (List.mem_cons_of_mem _ List.mem_cons_self)
  · exact hchild (by decide)
  · exact hchild (by decide)
  · exact hchild (by decide)
  · exact .of_mem (List.mem_cons_of_mem _ (List.mem_cons_of_mem _ List.mem_cons_self))
  · exact hchild (by decide)
  · exact hchild (by decide)
  · exact hchild (by decide)

theorem forkStores_child_status : byte (forkStores m csr s0 g) g.pcb pcbStatus = stateReady := by
  simp (disch := decide) only [forkStores, byte_setWord_ne, byte_setByte]

variable (hap : (pcbSpan s0).Apart (pcbSpan g.pcb))

include hap

/-- A byte of the parent's PCB that the copy reaches. -/
theorem byte_memcpy_child {j : Nat} (hj : j < g.a2.toNat) (hn : g.a2.toNat ≤ pcbSize) :
    byte (memcpy m s0 g.pcb g.a2.toNat) g.pcb j = byte m s0 j := by
  refine memcpy_apply hj (hn.trans (by decide)) fun hx => ?_
  rw [← part_zero] at hx
  have hparent : (part s0 j 1).Has (s0 + BitVec.ofNat 32 j) := by
    rw [Span.Has, part, BitVec.sub_self]
    exact Nat.one_pos
  exact hap.part (by omega) (by omega) _ hparent hx

theorem word_memcpy_child {j : Nat} (hj : j + 4 ≤ g.a2.toNat) (hn : g.a2.toNat ≤ pcbSize) :
    word (memcpy m s0 g.pcb g.a2.toNat) g.pcb j = word m s0 j :=
  word_congr fun k hk => byte_memcpy_child hap (by omega) hn

theorem forkStores_child_next (hlo : 136 ≤ g.a2.toNat) (hn : g.a2.toNat ≤ pcbSize) :
    word (forkStores m csr s0 g) g.pcb pcbNext = word m s0 pcbNext := by
  simp (disch := decide) only [forkStores, word_setWord_ne, word_setByte_ne, word_setWord_apart hap]
  exact word_memcpy_child hap hlo hn

theorem forkStores_child_ptext (hlo : 148 ≤ g.a2.toNat) (hn : g.a2.toNat ≤ pcbSize) :
    word (forkStores m csr s0 g) g.pcb pcbPtextMemoryRegion = word m s0 pcbPtextMemoryRegion := by
  simp (disch := decide) only [forkStores, word_setWord_ne, word_setByte_ne, word_setWord_apart hap]
  exact word_memcpy_child hap hlo hn

theorem forkStores_child_pdata :
    word (forkStores m csr s0 g) g.pcb pcbPdataMemoryRegion = g.region := by
  simp (disch := decide) only [forkStores, word_setWord_ne, word_setByte_ne, word_setWord_apart hap,
    word_setWord]

theorem forkStores_child_pid (hn : g.a2.toNat ≤ 164) :
    byte (forkStores m csr s0 g) g.pcb pcbPid = byte m g.pcb pcbPid := by
  simp (disch := decide) only [forkStores, byte_setWord_ne, byte_setByte_ne, byte_setWord_apart hap]
  refine (memcpy_alters m s0 g.pcb g.a2.toNat).byte (List.forall_mem_singleton.2 ?_)
  rw [← part_zero]
  exact Memory.part_apart (Or.inl (by rw [Nat.zero_add]; exact hn)) (by omega) (by decide)

theorem forkStores_parent_next : word (forkStores m csr s0 g) s0 pcbNext = g.pcb := by
  simp (disch := decide) only [forkStores, word_setWord_apart hap.symm, word_setByte_apart hap.symm,
    word_setWord]

end ForkStores

/-- `fork` gets all it asks for. -/
def ForkGrants.Enough (g : ForkGrants) : Prop := g.umem ≠ 0 ∧ g.pcb ≠ null ∧ g.region ≠ null

/-- What an allocator returns is in no PCB, null included. -/
theorem Placed.outside_of_grants (h : s.Placed) {n : Nat} (hg : s.Grants p n) (hn : n ≤ 256) :
    s.Outside ⟨p, n⟩ := by
  rcases hg with rfl | ⟨-, hpcbs, -⟩
  · intro q hq x hx hx'
    refine h.pcbs_low q hq x hx ?_
    exact Nat.lt_of_lt_of_le hx' hn
  · exact fun q hq => (hpcbs q hq).symm

theorem Outside.part {n i k : Nat} (h : s.Outside ⟨p, n⟩) (hi : i + k ≤ n) :
    s.Outside (part p i k) := fun q hq x hx hx' => h q hq x hx (has_of_part hx' hi)

theorem allocPcb_same (h : s.Placed) (hg : s.Grants p pcbSize) : s.Same (s.allocPcb p) :=
  Same.of_alters (alters_setByte _ _ _ _) (List.forall_mem_singleton.2
    ((h.outside_of_grants hg (by decide)).part (by decide)).sparesTable)

theorem aquire_same (h : s.RegionOutside r) : s.Same { s with mem := aquireMemorySegment s.mem r } := by
  rcases h with rfl | h
  · rw [aquireMemorySegment, if_pos rfl]
    exact Same.refl s
  · exact Same.of_alters (aquireMemorySegment_alters _ _)
      (List.forall_mem_singleton.2 h.sparesTable)

section Fork

variable {s0 : Ptr} {g : ForkGrants}

theorem forkRegion_alters (s : Kernel) (s0 : Ptr) (g : ForkGrants) :
    Alters [regionSpan g.region] s.mem (s.forkRegion s0 g) := by
  have hpart : ∀ {i n : Nat}, i + n ≤ memoryRegionStructSize →
      Covered [regionSpan g.region] (part g.region i n) := fun hi => .part List.mem_cons_self hi
  have haquire := (aquireMemorySegment_alters s.mem g.region).mono
    (List.forall_mem_singleton.2 (hpart (by decide)))
  rw [forkRegion]
  exact (haquire.setWord (hpart (by decide))).setWord (hpart (by decide))

/-- The state in which the child's PCB is handed out. -/
def forkStart (s : Kernel) (s0 : Ptr) (g : ForkGrants) : Kernel :=
  { s with mem := aquireMemorySegment s.mem (s.ptext s0) }.allocPcb g.pcb

theorem ecallFork_eq (hg : g.Enough) : s.ecallFork s0 g =
    { s.forkStart s0 g with
      regions := g.region :: s.regions
      mem := forkStores ((s.forkStart s0 g).forkRegion s0 g) s.csr s0 g } := by
  rw [ecallFork, if_neg hg.1, if_neg hg.2.1, if_neg hg.2.2]
  rfl

/-- **What a fork that gets all it asks for does to the table.**  The child is put in behind the
parent.  How much of the parent it holds depends on how far the copy goes. -/
structure Forked (s t : Kernel) (s0 : Ptr) (g : ForkGrants) : Prop where
  next_parent : t.next s0 = g.pcb
  next : ∀ p ∈ s.pcbs, p ≠ s0 → t.next p = s.next p
  ptext : ∀ p ∈ s.pcbs, t.ptext p = s.ptext p
  pdata : ∀ p ∈ s.pcbs, t.pdata p = s.pdata p
  pid : ∀ p ∈ s.pcbs, t.pid p = s.pid p
  status : ∀ p ∈ s.pcbs, t.status p = s.status p
  child_next : 136 ≤ g.a2.toNat → t.next g.pcb = s.next s0
  child_ptext : 148 ≤ g.a2.toNat → t.ptext g.pcb = s.ptext s0
  child_pdata : t.pdata g.pcb = g.region
  child_pid : g.a2.toNat ≤ 164 → t.pid g.pcb = (s.pcbNextPid + 1).setWidth 8
  child_status : t.status g.pcb = stateReady

variable (hpl : s.Placed) (hs0 : s0 ∈ s.pcbs) (hpcb : s.Grants g.pcb pcbSize)
  (hregion : (s.allocPcb g.pcb).Grants g.region memoryRegionStructSize) (hg : g.Enough)
  (hn : g.a2.toNat ≤ pcbSize)

omit hpl hpcb hs0 in
include hregion hg in
theorem forkRegion_apart : s.Outside (regionSpan g.region) ∧
    (regionSpan g.region).Apart (pcbSpan g.pcb) := by
  obtain ⟨-, hpcbs, -⟩ := hregion.resolve_left hg.2.2
  rw [allocPcb, if_neg hg.2.1] at hpcbs
  exact ⟨fun p hp => (hpcbs p (List.mem_cons_of_mem _ hp)).symm, hpcbs g.pcb List.mem_cons_self⟩

/-- The spans that a fork writes to. -/
def forkSpans (s : Kernel) (s0 : Ptr) (g : ForkGrants) : List Span :=
  [part (s.ptext s0) memoryRegionRefCount 4, regionSpan g.region, pcbSpan g.pcb, part s0 tfA0 4,
    part s0 pcbNext 4]

theorem forkStart_alters (s : Kernel) (s0 : Ptr) (g : ForkGrants) :
    Alters [part (s.ptext s0) memoryRegionRefCount 4, pcbSpan g.pcb] s.mem (s.forkStart s0 g).mem :=
  ((aquireMemorySegment_alters s.mem (s.ptext s0)).mono
    (List.forall_mem_singleton.2 (.of_mem List.mem_cons_self))).setByte
      (.part (List.mem_cons_of_mem _ List.mem_cons_self) (by decide))

include hg hn in
theorem ecallFork_alters : Alters (s.forkSpans s0 g) s.mem (s.ecallFork s0 g).mem := by
  rw [ecallFork_eq hg]
  refine ((forkStart_alters s s0 g).mono ?_).trans
    (((forkRegion_alters _ s0 g).mono ?_).trans ((forkStores_alters _ _ hn).mono ?_))
  · exact fun b hb => .of_mem (by rw [forkSpans]; grind)
  · exact fun b hb => .of_mem (by rw [forkSpans]; grind)
  · exact fun b hb => .of_mem (by rw [forkSpans]; grind)

include hpl hs0 hpcb hregion hg

/-- The fields of the PCBs of `s` that a fork spares. -/
theorem fork_spares (htext : s.RegionOutside (s.ptext s0)) {i n : Nat} (hlo : 36 ≤ i)
    (hi : i + n ≤ 132 ∨ 136 ≤ i) (hhi : i + n ≤ pcbSize) : ∀ b ∈ s.forkSpans s0 g, s.Spares i n b := by
  have hspan := forkRegion_apart hregion hg
  have hchild := hpl.outside_of_grants hpcb (by decide)
  simp only [forkSpans, List.forall_mem_cons]
  refine ⟨(hpl.outside_count htext).spares hhi, hspan.1.spares hhi, hchild.spares hhi,
    hpl.spares hs0 (Or.inl ?_) (by decide) hhi, hpl.spares hs0 ?_ (by decide) hhi, by simp⟩
  · exact hlo
  · exact hi.symm

include hn

/-- **Fork.** -/
theorem ecallFork_forked (htext : s.RegionOutside (s.ptext s0)) :
    s.Forked (s.ecallFork s0 g) s0 g := by
  have halter : Alters (s.forkSpans s0 g) s.mem (s.ecallFork s0 g).mem := ecallFork_alters hg hn
  have hspares := fun {i n} => @fork_spares s s0 g hpl hs0 hpcb hregion hg htext i n
  have hword : ∀ {i : Nat}, 36 ≤ i → i + 4 ≤ 132 ∨ 136 ≤ i → i + 4 ≤ pcbSize → ∀ p ∈ s.pcbs,
      word (s.ecallFork s0 g).mem p i = word s.mem p i := fun hlo hi hhi p hp =>
    halter.word fun b hb => hspares hlo hi hhi b hb p hp
  have hbyte : ∀ {i : Nat}, 36 ≤ i → i + 1 ≤ 132 ∨ 136 ≤ i → i + 1 ≤ pcbSize → ∀ p ∈ s.pcbs,
      byte (s.ecallFork s0 g).mem p i = byte s.mem p i := fun hlo hi hhi p hp =>
    halter.byte fun b hb => hspares hlo hi hhi b hb p hp
  have hspan := forkRegion_apart hregion hg
  have hchild := hpl.outside_of_grants hpcb (by decide)
  have hap := hchild s0 hs0
  -- what the copy finds in the parent
  have hparent : ∀ {i : Nat}, 36 ≤ i → i + 4 ≤ pcbSize →
      word ((s.forkStart s0 g).forkRegion s0 g) s0 i = word s.mem s0 i := by
    intro i hlo hhi
    rw [(forkRegion_alters _ s0 g).word, (forkStart_alters s s0 g).word]
    · simp only [List.forall_mem_cons]
      exact ⟨(hpl.outside_count htext).spares hhi s0 hs0, hchild.spares hhi s0 hs0, by simp⟩
    · exact List.forall_mem_singleton.2 (hspan.1.spares hhi s0 hs0)
  have hpid : byte ((s.forkStart s0 g).forkRegion s0 g) g.pcb pcbPid = (s.pcbNextPid + 1).setWidth 8 := by
    rw [(forkRegion_alters _ s0 g).byte]
    · exact byte_setByte _ _ _ _
    · exact List.forall_mem_singleton.2 fun x hx hx' => hspan.2 x hx (has_of_part hx' (by decide))
  constructor
  · rw [ecallFork_eq hg]
    exact forkStores_parent_next hap
  · intro p hp hne
    refine halter.word ?_
    simp only [forkSpans, List.forall_mem_cons]
    refine ⟨(hpl.outside_count htext).spares (by decide) p hp, hspan.1.spares (by decide) p hp,
      hchild.spares (by decide) p hp, ?_, (hpl.apart hs0 hp hne.symm).part (by decide) (by decide), by simp⟩
    exact hpl.part_apart hs0 hp (by decide) (by decide) (by decide)
  · exact hword (by decide) (by decide) (by decide)
  · exact hword (by decide) (by decide) (by decide)
  · exact hbyte (by decide) (by decide) (by decide)
  · exact hbyte (by decide) (by decide) (by decide)
  · intro h136
    rw [next, ecallFork_eq hg]
    exact (forkStores_child_next hap h136 hn).trans (hparent (by decide) (by decide))
  · intro h148
    rw [ptext, ecallFork_eq hg]
    exact (forkStores_child_ptext hap h148 hn).trans (hparent (by decide) (by decide))
  · rw [pdata, ecallFork_eq hg]
    exact forkStores_child_pdata hap
  · intro h164
    rw [pid, ecallFork_eq hg]
    exact (forkStores_child_pid hap h164).trans hpid
  · rw [status, ecallFork_eq hg]
    exact forkStores_child_status

end Fork

section ForkFail

variable {s0 : Ptr} {g : ForkGrants}

/-- The books are those of `s`, as far as the PCBs of `s` are concerned. -/
structure BooksKept (s t : Kernel) : Prop where
  currentPcb : t.currentPcb = s.currentPcb
  kidle : t.kidle = s.kidle
  pcbs : t.pcbs = s.pcbs
  loads : t.loads = s.loads
  requests : t.requests = s.requests
  exited : ∀ p ∈ s.pcbs, p ∈ t.exited ↔ p ∈ s.exited
  blocked : ∀ p ∈ s.pcbs, p ∈ t.blocked ↔ p ∈ s.blocked

theorem SameBooks.kept (h : s.SameBooks t) : s.BooksKept t where
  currentPcb := h.currentPcb
  kidle := h.kidle
  pcbs := h.pcbs
  loads := h.loads
  requests := h.requests
  exited _ _ := by rw [h.exited]
  blocked _ _ := by rw [h.blocked]

theorem BooksKept.trans (h : s.BooksKept t) (h' : t.BooksKept u) : s.BooksKept u where
  currentPcb := h'.currentPcb.trans h.currentPcb
  kidle := h'.kidle.trans h.kidle
  pcbs := h'.pcbs.trans h.pcbs
  loads := h'.loads.trans h.loads
  requests := h'.requests.trans h.requests
  exited p hp := (h'.exited p (by rwa [h.pcbs])).trans (h.exited p hp)
  blocked p hp := (h'.blocked p (by rwa [h.pcbs])).trans (h.blocked p hp)

/-- A PCB that may be handed out is not one of those that are. -/
theorem Placed.ne_of_grants (h : s.Placed) (hg : s.Grants p pcbSize) (hq : q ∈ s.pcbs) : q ≠ p := by
  rcases hg with rfl | ⟨-, hpcbs, -⟩
  · rintro rfl
    exact h.null_notMem hq
  · rintro rfl
    exact not_apart_self (Nat.succ_pos _) (hpcbs _ hq)

/-- The books of a new process say nothing of the others. -/
theorem Placed.mem_filter (h : s.Placed) (hg : s.Grants p pcbSize) (hq : q ∈ s.pcbs) (l : List Ptr) :
    q ∈ l.filter (· ≠ p) ↔ q ∈ l := by
  rw [List.mem_filter, decide_eq_true_iff]
  exact and_iff_left (h.ne_of_grants hg hq)

theorem forkUallocFail_books (s : Kernel) (s0 : Ptr) : s.SameBooks (s.forkUallocFail s0) :=
  (releaseMemorySegment_books s (s.ptext s0)).trans (.of_mem _ _ _ _)

theorem forkUallocFail_alters (s : Kernel) (s0 : Ptr) :
    Alters [part (s.ptext s0) memoryRegionRefCount 4, part s0 tfA0 4] s.mem (s.forkUallocFail s0).mem :=
  ((releaseMemorySegment_alters s (s.ptext s0)).mono
    (List.forall_mem_singleton.2 (.of_mem List.mem_cons_self))).setWord
      (.of_mem (List.mem_cons_of_mem _ List.mem_cons_self))

/-- **A fork that fails** has taken the text region, and perhaps a PCB that it has given back. -/
theorem ecallFork_fail (hpl : s.Placed) (hpcb : s.Grants g.pcb pcbSize) (hg : ¬ g.Enough) :
    ∃ u, s.ecallFork s0 g = u.forkUallocFail s0 ∧ s.BooksKept u ∧ u.regions = s.regions ∧
      u.released = s.released ∧ (u.mem = aquireMemorySegment s.mem (s.ptext s0) ∨
        u.mem = (s.forkStart s0 g).mem) := by
  rw [ecallFork]
  by_cases humem : g.umem = 0
  · rw [if_pos humem]
    exact ⟨_, rfl, ⟨rfl, rfl, rfl, rfl, rfl, fun _ _ => Iff.rfl, fun _ _ => Iff.rfl⟩, rfl, rfl, Or.inl rfl⟩
  have hexited := fun p hp => hpl.mem_filter (q := p) hpcb hp s.exited
  have hblocked := fun p hp => hpl.mem_filter (q := p) hpcb hp s.blocked
  rw [if_neg humem]
  by_cases hnull : g.pcb = null
  · rw [if_pos hnull]
    exact ⟨_, rfl, ⟨rfl, rfl, if_pos hnull, rfl, rfl, hexited, hblocked⟩, rfl, rfl, Or.inr rfl⟩
  rw [if_neg hnull, if_pos (not_not.1 fun hr => hg ⟨humem, hnull, hr⟩)]
  refine ⟨_, rfl, ⟨rfl, rfl, ?_, rfl, rfl, hexited, hblocked⟩, rfl, rfl, Or.inr rfl⟩
  rw [freePcb, allocPcb, if_neg hnull]
  exact @List.erase_cons_head Ptr _ _ g.pcb s.pcbs

theorem ecallFork_fail_books (s0 : Ptr) (hpl : s.Placed) (hpcb : s.Grants g.pcb pcbSize) (hg : ¬ g.Enough) :
    s.BooksKept (s.ecallFork s0 g) ∧ (s.ecallFork s0 g).regions.Sublist s.regions := by
  obtain ⟨u, hu, hbooks, hregions, -⟩ : ∃ u : Kernel, s.ecallFork s0 g = u.forkUallocFail s0 ∧ _ :=
    ecallFork_fail hpl hpcb hg
  rw [hu, ← hregions]
  exact ⟨hbooks.trans (forkUallocFail_books u s0).kept, releaseMemorySegment_regions u _⟩

/-- The spans that a fork that fails writes to. -/
def forkFailSpans (s : Kernel) (s0 : Ptr) (g : ForkGrants) : List Span :=
  [part (s.ptext s0) memoryRegionRefCount 4, pcbSpan g.pcb, part s0 tfA0 4]

theorem forkFail_spares (hpl : s.Placed) (hs0 : s0 ∈ s.pcbs) (hpcb : s.Grants g.pcb pcbSize)
    (htext : s.RegionOutside (s.ptext s0)) {i n : Nat} (hlo : 36 ≤ i) (hhi : i + n ≤ pcbSize) :
    ∀ b ∈ s.forkFailSpans s0 g, s.Spares i n b := by
  simp only [forkFailSpans, List.forall_mem_cons]
  exact ⟨(hpl.outside_count htext).spares hhi, (hpl.outside_of_grants hpcb (by decide)).spares hhi,
    hpl.spares hs0 (Or.inl hlo) (by decide) hhi, by simp⟩

theorem ecallFork_fail_alters (hpl : s.Placed) (hs0 : s0 ∈ s.pcbs) (hpcb : s.Grants g.pcb pcbSize)
    (hg : ¬ g.Enough) (htext : s.RegionOutside (s.ptext s0)) :
    Alters (s.forkFailSpans s0 g) s.mem (s.ecallFork s0 g).mem := by
  obtain ⟨u, hu, -, -, -, hmem⟩ : ∃ u : Kernel, s.ecallFork s0 g = u.forkUallocFail s0 ∧ _ :=
    ecallFork_fail hpl hpcb hg
  have halter : Alters (s.forkFailSpans s0 g) s.mem u.mem := by
    rcases hmem with hmem | hmem <;> rw [hmem]
    · exact (aquireMemorySegment_alters _ _).mono (List.forall_mem_singleton.2 (.of_mem List.mem_cons_self))
    · exact (forkStart_alters s s0 g).mono fun b hb => .of_mem (by rw [forkFailSpans]; grind)
  have hptext : u.ptext s0 = s.ptext s0 :=
    halter.word fun b hb => forkFail_spares hpl hs0 hpcb htext (by decide) (by decide) b hb s0 hs0
  rw [hu]
  refine halter.trans ((forkUallocFail_alters u s0).mono fun b hb => .of_mem ?_)
  rw [hptext] at hb
  rw [forkFailSpans]
  grind

end ForkFail

/-! ### Exit -/

section Exit

variable {a0 : Ptr} {junk : Word}

/-- The search for the parent ends at the first PCB it finds, and that process is not waiting. -/
def ExitQuiet (s : Kernel) (a0 : Ptr) (junk : Word) : Prop :=
  ∃ q, (s.exitRelease a0 junk).1.getPcbFromId
      (byte (s.exitRelease a0 junk).1.mem (s.exitRelease a0 junk).2 pcbPpid) = some q ∧ q ≠ null ∧
    ¬ ((s.exitRelease a0 junk).1.status q = stateBlocked ∧
      byte (s.exitRelease a0 junk).1.mem q pcbWaitReason = waitingForChild)

theorem exitParent_found {fuel : Nat} {t0 : Ptr} (hq : s.getPcbFromId (byte s.mem t0 pcbPpid) = some q)
    (hne : q ≠ null)
    (hwait : ¬ (s.status q = stateBlocked ∧ byte s.mem q pcbWaitReason = waitingForChild)) :
    exitParent (fuel + 1) s t0 = some s := by
  rw [exitParent, hq, Option.bind_eq_bind, Option.bind_some, if_neg hne]
  exact if_neg hwait

/-- An exit that finds its parent, and it is not waiting, ends there. -/
theorem ecallExit_quiet (h : s.ExitQuiet a0 junk) :
    s.ecallExit a0 junk = some (s.exitRelease a0 junk).1 := by
  obtain ⟨q, hq, hne, hwait⟩ := h
  exact exitParent_found hq hne hwait

theorem exitMark_alters (s : Kernel) (a0 : Ptr) :
    Alters [part a0 pcbExitCode 1, part a0 pcbStatus 1] s.mem (s.exitMark a0).mem :=
  ((Alters.refl _ s.mem).setByte (.of_mem List.mem_cons_self)).setByte
    (.of_mem (List.mem_cons_of_mem _ List.mem_cons_self))

theorem exitMark_ptext (s : Kernel) (a0 : Ptr) : (s.exitMark a0).ptext a0 = s.ptext a0 := by
  simp (disch := decide) only [exitMark, Kernel.ptext, word_setByte_ne]

theorem exitMark_books (s : Kernel) (a0 : Ptr) :
    ({ s with exited := a0 :: s.exited } : Kernel).SameBooks (s.exitMark a0) := .of_mem _ _ _ _

theorem exitText_alters (s : Kernel) (a0 : Ptr) :
    Alters [part a0 pcbExitCode 1, part a0 pcbStatus 1, part (s.ptext a0) memoryRegionRefCount 4]
      s.mem (s.exitText a0).mem := by
  refine ((exitMark_alters s a0).mono ?_).trans ((releaseMemorySegment_alters _ _).mono ?_)
  · exact fun b hb => .of_mem (by grind)
  · rw [exitMark_ptext]
    exact fun b hb => .of_mem (by grind)

theorem exitText_books (s : Kernel) (a0 : Ptr) :
    ({ s with exited := a0 :: s.exited } : Kernel).SameBooks (s.exitText a0) :=
  (exitMark_books s a0).trans (releaseMemorySegment_books _ _)

theorem exitRelease_alters (s : Kernel) (a0 : Ptr) (junk : Word) :
    Alters [part a0 pcbExitCode 1, part a0 pcbStatus 1, part (s.ptext a0) memoryRegionRefCount 4,
      part ((s.exitText a0).pdata (s.exitText a0).exitPcb) memoryRegionRefCount 4]
      s.mem (s.exitRelease a0 junk).1.mem := by
  refine ((exitText_alters s a0).mono ?_).trans ((releaseMemorySegment_alters _ _).mono ?_)
  · exact fun b hb => .of_mem (by grind)
  · exact fun b hb => .of_mem (by grind)

theorem exitRelease_books (s : Kernel) (a0 : Ptr) (junk : Word) :
    ({ s with exited := a0 :: s.exited } : Kernel).SameBooks (s.exitRelease a0 junk).1 :=
  (exitText_books s a0).trans (releaseMemorySegment_books _ _)

theorem exitRelease_regions (s : Kernel) (a0 : Ptr) (junk : Word) :
    (s.exitRelease a0 junk).1.regions.Sublist s.regions :=
  (releaseMemorySegment_regions _ _).trans (releaseMemorySegment_regions _ _)

/-- The first half keeps the table. -/
theorem exitText_same (h : s.Placed) (ha : a0 ∈ s.pcbs) (htext : s.RegionOutside (s.ptext a0)) :
    s.Same (s.exitText a0) := by
  refine Same.of_alters (exitText_alters s a0) ?_
  simp only [List.forall_mem_cons]
  exact ⟨h.sparesTable ha (Or.inr (Or.inr (Or.inr (by decide)))),
    h.sparesTable ha (Or.inr (Or.inr (Or.inr (by decide)))), (h.outside_count htext).sparesTable, by simp⟩

/-- **Exit** keeps the table, as long as both counts it writes are outside. -/
theorem exitRelease_same (h : s.Placed) (ha : a0 ∈ s.pcbs) (htext : s.RegionOutside (s.ptext a0))
    (hdata : s.RegionOutside ((s.exitText a0).pdata (s.exitText a0).exitPcb)) :
    s.Same (s.exitRelease a0 junk).1 := by
  have hpcbs : (s.exitText a0).pcbs = s.pcbs := (exitText_books s a0).pcbs
  refine (exitText_same h ha htext).trans (releaseMemorySegment_same _ _ ?_) ?_
  · rw [RegionOutside, Outside, hpcbs]
    exact hdata
  · rw [hpcbs]
    exact List.Subset.refl _

end Exit

/-! ### The first process -/

/-- `kexecve` makes a ring of one. -/
theorem kexecve_next (s : Kernel) (slab : Ptr) : (s.kexecve slab).next slab = slab := by
  simp (disch := decide) only [kexecve, elfLoadSubmit, Kernel.next, word_setWord_ne, word_setWord]

theorem kexecve_ptext (s : Kernel) (slab : Ptr) : (s.kexecve slab).ptext slab = null := by
  simp (disch := decide) only [kexecve, elfLoadSubmit, Kernel.ptext, word_setWord_ne, word_setWord]
  rfl

theorem kexecve_pdata (s : Kernel) (slab : Ptr) : (s.kexecve slab).pdata slab = null := by
  simp (disch := decide) only [kexecve, elfLoadSubmit, Kernel.pdata, word_setWord]
  rfl

theorem kexecve_pid (s : Kernel) (slab : Ptr) :
    (s.kexecve slab).pid slab = (s.pcbNextPid + 1).setWidth 8 := by
  simp (disch := decide) only [kexecve, elfLoadSubmit, allocPcb, Kernel.pid, byte_setWord_ne,
    byte_setByte_ne, byte_setByte]

theorem kexecve_status (s : Kernel) (slab : Ptr) : (s.kexecve slab).status slab = stateBlocked := by
  simp (disch := decide) only [kexecve, elfLoadSubmit, Kernel.status, byte_setWord_ne, byte_setByte]

end Kernel

end RiscyOS
