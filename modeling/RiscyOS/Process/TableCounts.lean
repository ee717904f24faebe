import RiscyOS.Lib.RefCount
import RiscyOS.Process.TableRing

/-!
# The reference counts of the memory regions

A region record carries the number of processes that use it, through the text or the data pointer of
their PCBs, and `release_memory_segment` frees it with the last of them.

* `Kernel.CountsExact`, `Kernel.FreedExactly` — what the counts are for.  A load in flight keeps its
  records to itself: they are handed out, with a count of one each, when it is over.
* `Kernel.counts` — the records handed out, as the counts of `RiscyOS.Lib.RefCount`.  What the code does to a
  record is what the library does to a count (`counts_aquire`, `counts_release`, `counts_make`), and each
  event is one change of one holder: a child comes in (`CountInv.fork`), a process exchanges what it holds
  (`CountInv.loaded`), or lets go of it (`CountInv.exit`).
* `Kernel.CountSafe` — the events that keep them.  `fork` adds one to whatever is in the memory of the
  child's record; `exit` releases the region of a pointer it has misread; and the loader forgets the first
  of two segments of one kind.
* `region_counts` — with these events only, the counts are exact in every state, and every step frees
  exactly the regions that have lost their last user.
-/

set_option autoImplicit false

namespace RiscyOS

open Memory

namespace Kernel

variable {s t : Kernel} {p q r a0 pcb : Ptr} {idle : Word} {e : Event} {S : List Span}

/-! ## Users and counts -/

/-- The process at `p` has not exited, and its text or data pointer refers to `r`. -/
def holds (s : Kernel) (r p : Ptr) : Bool :=
  decide (r ≠ null ∧ p ∉ s.exited ∧ (s.ptext p = r ∨ s.pdata p = r))

theorem holds_congr (hexited : p ∈ t.exited ↔ p ∈ s.exited) (hptext : t.ptext p = s.ptext p)
    (hpdata : t.pdata p = s.pdata p) : t.holds r p = s.holds r p :=
  decide_eq_decide.2 (by rw [hexited, hptext, hpdata])

/-- How many such processes there are. -/
def users (s : Kernel) (r : Ptr) : Nat := holders s.pcbs s.holds r

/-- **The counts are exact.** -/
def CountsExact (s : Kernel) : Prop := ∀ r ∈ s.regions, (s.refCount r).toNat = s.users r

/-- **A step frees exactly** the regions that lose their last user in it, each once. -/
def FreedExactly (s t : Kernel) : Prop :=
  t.released.Nodup ∧ ∀ r, r ∈ t.released ↔ 0 < s.users r ∧ t.users r = 0

/-- The segment is loaded as text. -/
def Segment.isText (seg : Segment) : Bool := decide (seg.pheader.pFlags &&& pfX ≠ 0)

/-- The events that keep the counts. -/
def CountSafe (s : Kernel) (e : Event) : Prop :=
  s.RingSafe e ∧ match e with
    | .fork g => s.currentPcb ∉ s.exited ∧ (g.Enough → 148 ≤ g.a2.toNat ∧ s.refCount g.region = 0)
    | .exit _ => s.currentPcb ∉ s.exited ∧
        (s.ecall.exitText s.currentPcb).pdata (s.ecall.exitText s.currentPcb).exitPcb = s.pdata s.currentPcb
    | .loaded pcb _ segs _ => pcb ∉ s.exited ∧ segs.Pairwise fun a b => a.isText ≠ b.isText
    | .loadFailed _ _ segs => segs.Pairwise fun a b => a.isText ≠ b.isText
    | .write made => ∀ x ∈ made, ∀ r ∈ s.regions, (regionSpan r).Apart (part x.link 0 4)
    | _ => True

/-- The records handed out, as counts. -/
def counts (s : Kernel) : Counts Ptr where
  count r := if r ∈ s.regions then (s.refCount r).toNat else 0
  freed := s.released

theorem counts_of_mem (h : r ∈ s.regions) : s.counts.count r = (s.refCount r).toNat := if_pos h

theorem counts_of_notMem (h : r ∉ s.regions) : s.counts.count r = 0 := if_neg h

theorem mem_of_counts (h : 0 < s.counts.count r) : r ∈ s.regions := by
  by_contra hr
  rw [counts_of_notMem hr] at h
  exact absurd h (Nat.lt_irrefl 0)

/-- The bytes `b` are in no count. -/
def SparesCounts (s : Kernel) (b : Span) : Prop :=
  ∀ r ∈ s.regions, b.Apart (part r memoryRegionRefCount 4)

theorem counts_congr (hregions : ∀ r, r ∈ t.regions ↔ r ∈ s.regions)
    (h : ∀ r ∈ s.regions, t.refCount r = s.refCount r) : t.counts.count = s.counts.count := by
  funext r
  by_cases hr : r ∈ s.regions
  · rw [counts_of_mem hr, counts_of_mem ((hregions r).2 hr), h r hr]
  · rw [counts_of_notMem hr, counts_of_notMem (mt (hregions r).1 hr)]

theorem counts_of_alters (h : Alters S s.mem t.mem) (hS : ∀ b ∈ S, s.SparesCounts b)
    (hregions : t.regions = s.regions) (hreleased : t.released = s.released) : t.counts = s.counts :=
  Counts.ext (counts_congr (fun r => by rw [hregions]) fun r hr => h.word fun b hb => hS b hb r hr) hreleased

theorem counts_eq (hmem : t.mem = s.mem) (hregions : t.regions = s.regions)
    (hreleased : t.released = s.released) : t.counts = s.counts :=
  counts_of_alters (S := []) (hmem ▸ Alters.refl _ _) (by simp) hregions hreleased

/-- What is in a PCB is in no count. -/
theorem Placed.sparesCounts (h : s.Placed) (hp : p ∈ s.pcbs) {i n : Nat} (hi : i + n ≤ pcbSize) :
    s.SparesCounts (part p i n) := fun r hr => (h.cross p hp r hr).part hi (by decide)

/-- Nor in another record. -/
theorem Placed.region_apart (h : s.Placed) (hr : r ∈ s.regions) (hq : q ∈ s.regions) (hne : r ≠ q) :
    (part r memoryRegionRefCount 4).Apart (part q memoryRegionRefCount 4) :=
  (h.regions.forall hr hq hne).part (by decide) (by decide)

/-- The count of one record is written. -/
theorem counts_set (h : s.Placed) (ha : a0 ∈ s.regions) {v : Word}
    (hmem : t.mem = setWord s.mem a0 memoryRegionRefCount v) (hregions : t.regions = s.regions)
    (hreleased : t.released = s.released) :
    t.counts = ⟨Function.update s.counts.count a0 v.toNat, s.released⟩ := by
  refine Counts.ext (funext fun r => ?_) hreleased
  change _ = Function.update s.counts.count a0 v.toNat r
  by_cases hra : r = a0
  · subst hra
    rw [counts_of_mem (hregions ▸ ha), refCount, hmem, word_setWord, Function.update_self]
  · rw [Function.update_of_ne hra]
    by_cases hr : r ∈ s.regions
    · rw [counts_of_mem hr, counts_of_mem (hregions ▸ hr), refCount, refCount, hmem,
        (alters_setWord _ _ _ _).word (List.forall_mem_singleton.2 (h.region_apart ha hr (Ne.symm hra)))]
    · rw [counts_of_notMem hr, counts_of_notMem (hregions ▸ hr)]

/-- A record that may be handed out is not one of those that are. -/
theorem Grants.notMem_regions (hg : s.Grants r memoryRegionStructSize) (hr : r ≠ null) : r ∉ s.regions :=
  fun hmem => not_apart_self (Nat.succ_pos _) ((hg.resolve_left hr).2.2 r hmem)

/-- Nor is it where the pointer of a process leads to. -/
theorem Grants.count_apart (hg : s.Grants r memoryRegionStructSize) (hr : r ≠ null)
    (hq : q = null ∨ q ∈ s.regions) : (part q memoryRegionRefCount 4).Apart (regionSpan r) := by
  obtain ⟨hlow, -, hregions⟩ := hg.resolve_left hr
  rcases hq with rfl | hq
  · exact fun x hx hx' => hlow x hx' (has_of_part hx (by decide))
  · exact fun x hx hx' => hregions q hq x hx' (has_of_part hx (by decide))

/-- **A record is handed out** with a count of one. -/
theorem counts_make (hg : s.Grants r memoryRegionStructSize) (hr : r ≠ null)
    (halter : Alters [regionSpan r] s.mem t.mem) (hcount : t.refCount r = 1)
    (hregions : t.regions = r :: s.regions) (hreleased : t.released = s.released) :
    t.counts = s.counts.acquire r := by
  have hnew := hg.notMem_regions hr
  refine Counts.ext (funext fun q => ?_) hreleased
  by_cases hqr : q = r
  · subst hqr
    rw [counts_of_mem (hregions ▸ List.mem_cons_self), hcount, Counts.acquire_count_self,
      counts_of_notMem hnew]
    rfl
  · rw [Counts.acquire_count_of_ne hqr]
    by_cases hq : q ∈ s.regions
    · have hword : t.refCount q = s.refCount q := halter.word (List.forall_mem_singleton.2 fun x hx hx' =>
        (hg.resolve_left hr).2.2 q hq x hx (has_of_part hx' (by decide)))
      rw [counts_of_mem hq, counts_of_mem (hregions ▸ List.mem_cons_of_mem _ hq), hword]
    · rw [counts_of_notMem hq, counts_of_notMem]
      rw [hregions, List.mem_cons]
      exact fun h => h.elim hqr hq

/-- **`aquire_memory_segment`** is one more holder. -/
theorem counts_aquire (h : s.Placed) (ha : a0 ∈ s.regions) (hlt : s.counts.count a0 + 1 < 2 ^ 32) :
    ({ s with mem := aquireMemorySegment s.mem a0 } : Kernel).counts = s.counts.acquire a0 := by
  have hne : a0 ≠ null := fun hnull => h.null_notMem_regions (hnull ▸ ha)
  have hmem : aquireMemorySegment s.mem a0 = setWord s.mem a0 memoryRegionRefCount (s.refCount a0 + 1) :=
    if_neg hne
  have hadd : (s.refCount a0 + 1).toNat = s.counts.count a0 + 1 := by
    rw [counts_of_mem ha] at hlt ⊢
    exact (BitVec.toNat_add _ _).trans (Nat.mod_eq_of_lt hlt)
  have hset := counts_set (t := { s with mem := aquireMemorySegment s.mem a0 }) h ha hmem rfl rfl
  rw [hset, Counts.acquire, hadd]
  rfl

/-- **`release_memory_segment`** is one holder fewer. -/
theorem counts_release (h : s.Placed) (ha : a0 ∈ s.regions) (hpos : 0 < s.counts.count a0) :
    (s.releaseMemorySegment a0).counts = s.counts.release a0 := by
  have hne : a0 ≠ null := fun hnull => h.null_notMem_regions (hnull ▸ ha)
  have hcount := counts_of_mem ha
  rw [hcount] at hpos
  have hsub : (s.refCount a0 - 1).toNat = (s.refCount a0).toNat - 1 := by
    generalize s.refCount a0 = v at hpos ⊢
    bv_omega
  rw [releaseMemorySegment, if_neg hne]
  simp only
  by_cases hlast : s.refCount a0 - 1 = 0
  · have hone : s.counts.count a0 = 1 := by
      rw [hlast] at hsub
      have hzero : (s.refCount a0).toNat - 1 = 0 := hsub.symm
      omega
    rw [if_pos (show word s.mem a0 memoryRegionRefCount - 1 = 0 from hlast)]
    refine Counts.ext (funext fun r => ?_) (if_pos hone).symm
    by_cases hra : r = a0
    · subst hra
      rw [Counts.release_count_self, hone]
      exact counts_of_notMem (List.Nodup.not_mem_erase h.nodup_regions)
    · rw [Counts.release_count_of_ne hra]
      simp only [counts, List.mem_erase_of_ne hra]
      rfl
  · have hone : s.counts.count a0 ≠ 1 := by
      rw [hcount]
      intro hone
      refine hlast (BitVec.eq_of_toNat_eq ?_)
      rw [hsub, hone]
      rfl
    have hset := counts_set (t := { s with mem := setWord s.mem a0 memoryRegionRefCount (s.refCount a0 - 1) })
      h ha rfl rfl rfl
    rw [if_neg (show ¬ word s.mem a0 memoryRegionRefCount - 1 = 0 from hlast)]
    refine Eq.trans hset ?_
    rw [Counts.release, if_neg hone, hcount, ← hsub]
    rfl

/-! ## What a process holds -/

/-- The regions that the PCB at `p` refers to. -/
def held (s : Kernel) (p : Ptr) : List Ptr := [s.ptext p, s.pdata p].filter (· ≠ null)

theorem mem_held (hp : p ∉ s.exited) : r ∈ s.held p ↔ s.holds r p = true := by
  rw [held, List.mem_filter, holds, decide_eq_true_iff, decide_eq_true_iff, List.mem_cons,
    List.mem_singleton, and_comm, eq_comm, @eq_comm _ r]
  exact and_congr_right fun _ => (and_iff_right hp).symm

theorem held_null (l : List Ptr) : (null :: l).filter (· ≠ null) = l.filter (· ≠ null) :=
  List.filter_cons_of_neg (by simp)

theorem held_cons (hr : r ≠ null) (l : List Ptr) :
    (r :: l).filter (· ≠ null) = r :: l.filter (· ≠ null) :=
  List.filter_cons_of_pos (decide_eq_true hr)

theorem held_nodup_of_ne {x y : Ptr} (h : x ≠ y) : ([x, y].filter (· ≠ null)).Nodup :=
  List.Nodup.filter _ (List.nodup_cons.2 ⟨by simpa using h, List.nodup_singleton _⟩)

/-- Both pointers of a process are given back, those that are not null. -/
theorem counts_releaseBoth {x y : Ptr} (h : s.Placed) (hx : x = null ∨ 0 < s.counts.count x)
    (hy : y = null ∨ 0 < s.counts.count y) (hxy : x = y → x = null) :
    ((s.releaseMemorySegment x).releaseMemorySegment y).counts =
      s.counts.releaseAll ([x, y].filter (· ≠ null)) := by
  have hnull : ∀ u : Kernel, u.releaseMemorySegment null = u := fun u => if_pos rfl
  have hone : ∀ {u : Kernel}, u.Placed → y = null ∨ 0 < u.counts.count y →
      (u.releaseMemorySegment y).counts = u.counts.releaseAll ([y].filter (· ≠ null)) := by
    intro u hu hy
    by_cases hyn : y = null
    · subst hyn
      rw [hnull]
      rfl
    · have hpos := hy.resolve_left hyn
      rw [counts_release hu (mem_of_counts hpos) hpos, held_cons hyn]
      rfl
  by_cases hxn : x = null
  · subst hxn
    rw [hnull, hone h hy, held_null]
  · have hpos := hx.resolve_left hxn
    have hmem := mem_of_counts hpos
    have hu : (s.releaseMemorySegment x).Placed :=
      h.sublist (by rw [(releaseMemorySegment_books s x).pcbs]) (releaseMemorySegment_regions s x)
    have hfirst := counts_release h hmem hpos
    have hyx : y ≠ x := fun heq => hxn (hxy heq.symm)
    rw [hone hu (by rwa [hfirst, Counts.release_count_of_ne hyx]), hfirst, held_cons hxn]
    rfl

/-- Nobody lets go of anything, and nothing is freed. -/
theorem freedExactly_of_le (hreleased : t.released = []) (hle : ∀ r, s.users r ≤ t.users r) :
    s.FreedExactly t := by
  refine ⟨hreleased ▸ List.nodup_nil, fun r => ?_⟩
  have hr := hle r
  simp only [hreleased, List.not_mem_nil, false_iff]
  omega

/-- What holds along a run. -/
structure CountInv (s : Kernel) : Prop where
  ring : s.RingInv
  counts : ∀ r, s.counts.count r = s.users r
  apart : ∀ p ∈ s.pcbs, p ∉ s.exited → s.ptext p = s.pdata p → s.ptext p = null

namespace CountInv

theorem exact (h : s.CountInv) : s.CountsExact := by
  intro r hr
  rw [← counts_of_mem hr]
  exact h.counts r

/-- A region that a process refers to is counted. -/
theorem held_pos (h : s.CountInv) (hp : p ∈ s.pcbs) (hlive : p ∉ s.exited) (hr : r ≠ null)
    (hrefers : s.ptext p = r ∨ s.pdata p = r) : 0 < s.counts.count r := by
  rw [h.counts]
  exact holders_pos hp (decide_eq_true ⟨hr, hlive, hrefers⟩)

theorem ptext_pos (h : s.CountInv) (hp : p ∈ s.pcbs) (hlive : p ∉ s.exited) :
    s.ptext p = null ∨ 0 < s.counts.count (s.ptext p) :=
  or_iff_not_imp_left.2 fun hne => h.held_pos hp hlive hne (Or.inl rfl)

theorem pdata_pos (h : s.CountInv) (hp : p ∈ s.pcbs) (hlive : p ∉ s.exited) :
    s.pdata p = null ∨ 0 < s.counts.count (s.pdata p) :=
  or_iff_not_imp_left.2 fun hne => h.held_pos hp hlive hne (Or.inr rfl)

theorem held_nodup (h : s.CountInv) (hp : p ∈ s.pcbs) (hlive : p ∉ s.exited) : (s.held p).Nodup := by
  by_cases hxy : s.ptext p = s.pdata p
  · have hnull := h.apart p hp hlive hxy
    rw [held, ← hxy, hnull]
    decide
  · exact held_nodup_of_ne hxy

/-- **A process lets go of its regions** and takes the new ones. -/
theorem exchange {c : Counts Ptr} {new : List Ptr} (h : s.CountInv) (hp : p ∈ s.pcbs)
    (hlive : p ∉ s.exited) (hcount : ∀ r, c.count r = s.users r + if r ∈ new then 1 else 0)
    (hfreed : c.freed = []) (hfresh : ∀ r ∈ new, s.users r = 0) (ht : t.counts = c.releaseAll (s.held p))
    (hpcbs : t.pcbs = s.pcbs) (hsame : ∀ r, ∀ x ∈ s.pcbs, x ≠ p → t.holds r x = s.holds r x)
    (hnew : ∀ r, t.holds r p = decide (r ∈ new)) :
    (∀ r, t.counts.count r = t.users r) ∧ s.FreedExactly t := by
  have hnodup := h.held_nodup hp hlive
  obtain ⟨hcounts, hgone⟩ := Counts.exchange h.ring.placed.nodup hp hsame hnew hfresh hcount hnodup
    fun r => mem_held hlive
  rw [← ht] at hcounts hgone
  have husers : ∀ r, t.users r = holders s.pcbs t.holds r := fun r => by rw [users, hpcbs]
  refine ⟨fun r => (hcounts r).trans (husers r).symm, ?_, fun r => ?_⟩
  · change t.counts.freed.Nodup
    rw [ht]
    exact Counts.nodup_releaseAll_freed hnodup (by simp [hfreed]) (by simp [hfreed])
  · refine (hgone r).trans ?_
    rw [hfreed, husers, users, or_iff_right List.not_mem_nil]

/-- What touches neither the counts nor the pointers. -/
theorem kept (h : s.CountInv) (hring : t.RingInv) (hcounts : t.counts.count = s.counts.count)
    (hreleased : t.released = []) (hpcbs : t.pcbs = s.pcbs)
    (hexited : ∀ p ∈ s.pcbs, p ∈ t.exited ↔ p ∈ s.exited) (hsame : s.Same t) :
    t.CountInv ∧ s.FreedExactly t := by
  have husers : ∀ r, t.users r = s.users r := by
    intro r
    rw [users, hpcbs]
    refine holders_congr fun p hp => ?_
    exact holds_congr (hexited p hp) (hsame.ptext p hp) (hsame.pdata p hp)
  refine ⟨⟨hring, fun r => ?_, fun p hp => ?_⟩, freedExactly_of_le hreleased fun r => (husers r).ge⟩
  · rw [hcounts, husers]
    exact h.counts r
  · rw [hpcbs] at hp
    rw [hexited p hp, hsame.ptext p hp, hsame.pdata p hp]
    exact h.apart p hp

theorem ecall (h : s.CountInv) : s.ecall.CountInv := ⟨h.ring.ecall, h.counts, h.apart⟩

theorem begin (h : s.CountInv) : ({ s with released := [] } : Kernel).CountInv :=
  ⟨h.ring.begin, h.counts, h.apart⟩

/-- Addresses 0 and 1 are the kernel's. -/
theorem count_lt (h : s.CountInv) : s.counts.count r + 1 < 2 ^ 32 := by
  have hlow : (1 : Ptr) ∉ s.pcbs := fun hmem =>
    h.ring.placed.pcbs_low 1 hmem 1 (show (1 - 1 : Word).toNat < 172 by decide) (by decide)
  have hnodup : (null :: 1 :: s.pcbs).Nodup := by
    refine List.nodup_cons.2 ⟨?_, List.nodup_cons.2 ⟨hlow, h.ring.placed.nodup⟩⟩
    rw [List.mem_cons]
    exact fun hmem => hmem.elim (by decide) h.ring.placed.null_notMem
  have hlen := length_le_of_nodup hnodup
  have hle := holders_le_length s.pcbs s.holds r
  rw [List.length_cons, List.length_cons] at hlen
  rw [h.counts, users]
  omega

/-- One more process refers to what `x` leads to. -/
theorem aquire (h : s.CountInv) {x : Ptr} (hx : x = null ∨ 0 < s.counts.count x) :
    ({ s with mem := aquireMemorySegment s.mem x } : Kernel).counts =
      s.counts.acquireAll ([x].filter (· ≠ null)) := by
  by_cases hnull : x = null
  · subst hnull
    rw [aquireMemorySegment, if_pos rfl, held_null]
    rfl
  · rw [counts_aquire h.ring.placed (mem_of_counts (hx.resolve_left hnull)) h.count_lt,
      held_cons hnull]
    rfl

end CountInv

/-! ## Steps -/

/-- What an allocator returns is in no count, null included. -/
theorem Placed.sparesCounts_of_grants (h : s.Placed) {n : Nat} (hg : s.Grants p n) (hn : n ≤ 256) :
    s.SparesCounts ⟨p, n⟩ := by
  intro r hr x hx hx'
  rcases hg with rfl | ⟨-, -, hregions⟩
  · exact h.regions_low r hr x (has_of_part hx' (by decide)) (Nat.lt_of_lt_of_le hx hn)
  · exact hregions r hr x hx (has_of_part hx' (by decide))

theorem Decided.counts (hd : s.Decided t a0) (h : s.RingInv) : t.counts = s.counts := by
  refine counts_of_alters hd.alters (List.forall_mem_singleton.2 ?_) hd.regions hd.released
  by_cases hcur : s.currentPcb = null
  · intro r hr x hx hx'
    rw [hcur] at hx
    exact h.placed.regions_low r hr x (has_of_part hx' (by decide)) (has_of_part hx (by decide))
  · exact h.placed.sparesCounts (h.ring.current_mem hcur) (by decide)

/-- A request that is over. -/
theorem unblock_counts (h : s.Placed) (hp : p ∈ s.pcbs) (requests : List Ptr) :
    ({ s with released := [], requests := requests }.unblockProcess p).counts.count = s.counts.count :=
  counts_congr (fun _ => Iff.rfl) fun r hr => (alters_setByte s.mem p pcbStatus stateReady).word
    (List.forall_mem_singleton.2 (h.sparesCounts hp (by decide) r hr))

theorem ttyMakeRequest_counts {made : Option MadeRequest} (h : s.RingInv) (hcur : s.currentPcb ≠ null)
    (hsafe : ∀ x ∈ made, ∀ r ∈ s.regions, (regionSpan r).Apart (part x.link 0 4)) :
    (s.ttyMakeRequest made).counts = s.counts := by
  cases made with
  | none => rfl
  | some made =>
    refine counts_of_alters (((alters_setByte s.mem s.currentPcb pcbStatus stateBlocked).mono
      (List.forall_mem_singleton.2 (.of_mem List.mem_cons_self))).setWord
        (.of_mem (List.mem_cons_of_mem _ (List.mem_singleton_self _)))) ?_ rfl rfl
    simp only [List.forall_mem_cons]
    refine ⟨h.placed.sparesCounts (h.ring.current_mem hcur) (by decide), ?_, by simp⟩
    intro r hr x hx hx'
    exact hsafe made rfl r hr x (has_of_part hx' (by decide)) hx

theorem Others.counts {m : Mem} {csr : Csr} (h : s.Others m) :
    ({ s with released := [], mem := m, csr := csr } : Kernel).counts.count = s.counts.count := by
  refine counts_congr (fun _ => Iff.rfl) fun r hr => word_congr fun k hk => h.region r hr _ ?_
  rw [memoryRegionRefCount, memoryRegionStructSize]
  omega

section Fork

variable {s0 : Ptr} {g : ForkGrants}

theorem forkStart_counts (h : s.CountInv) (hs0 : s0 ∈ s.pcbs) (hlive : s0 ∉ s.exited)
    (hpcb : s.Grants g.pcb pcbSize) :
    (s.forkStart s0 g).counts = s.counts.acquireAll ([s.ptext s0].filter (· ≠ null)) := by
  rw [← h.aquire (h.ptext_pos hs0 hlive)]
  refine counts_of_alters (alters_setByte _ _ _ _) (List.forall_mem_singleton.2 fun r hr x hx hx' => ?_) rfl rfl
  exact h.ring.placed.sparesCounts_of_grants hpcb (by decide) r hr x (has_of_part hx (by decide)) hx'

theorem forkStart_same (hpl : s.Placed) (hpcb : s.Grants g.pcb pcbSize)
    (htext : s.RegionOutside (s.ptext s0)) : s.Same (s.forkStart s0 g) := by
  have haquire := aquire_same htext
  have hplaced : ({ s with mem := aquireMemorySegment s.mem (s.ptext s0) } : Kernel).Placed := hpl.congr rfl rfl
  exact haquire.trans (allocPcb_same hplaced hpcb) (List.Subset.refl _)

/-- **A fork that fails** has taken the text region, and gives it back. -/
theorem ecallFork_fail_counts (h : s.CountInv) (hs0 : s0 ∈ s.pcbs) (hlive : s0 ∉ s.exited)
    (hpcb : s.Grants g.pcb pcbSize) (hg : ¬ g.Enough) : (s.ecallFork s0 g).counts = s.counts := by
  have hpl := h.ring.placed
  have htext := h.ptext_pos hs0 hlive
  have hout : s.RegionOutside (s.ptext s0) := hpl.regionOutside (htext.imp id mem_of_counts)
  obtain ⟨u, hu, hbooks, hregions, hreleased, hmem⟩ :
      ∃ u : Kernel, s.ecallFork s0 g = u.forkUallocFail s0 ∧ _ := ecallFork_fail hpl hpcb hg
  have hup : u.Placed := hpl.sublist (by rw [hbooks.pcbs]) (by rw [hregions])
  have htaken : u.counts = s.counts.acquireAll ([s.ptext s0].filter (· ≠ null)) ∧
      u.ptext s0 = s.ptext s0 := by
    rcases hmem with hmem | hmem
    · rw [← h.aquire htext]
      exact ⟨counts_eq hmem hregions hreleased, (congrArg (word · s0 pcbPtextMemoryRegion) hmem).trans
        ((aquire_same hout).ptext s0 hs0)⟩
    · rw [← forkStart_counts (g := g) h hs0 hlive hpcb]
      exact ⟨counts_eq hmem hregions hreleased, (congrArg (word · s0 pcbPtextMemoryRegion) hmem).trans
        ((forkStart_same hpl hpcb hout).ptext s0 hs0)⟩
  obtain ⟨hcounts, hptext⟩ := htaken
  have hgiven : (u.forkUallocFail s0).counts = (u.releaseMemorySegment (s.ptext s0)).counts := by
    rw [← hptext]
    refine counts_of_alters (alters_setWord _ _ _ _) (List.forall_mem_singleton.2 ?_) rfl rfl
    refine Placed.sparesCounts (hup.sublist ?_ (releaseMemorySegment_regions _ _)) ?_ (by decide)
    · rw [(releaseMemorySegment_books u _).pcbs]
    · rw [(releaseMemorySegment_books u _).pcbs, hbooks.pcbs]
      exact hs0
  rw [hu, hgiven]
  rcases htext with hnull | hpos
  · rw [hnull, releaseMemorySegment, if_pos rfl, hcounts, hnull]
    rfl
  · have hne : s.ptext s0 ≠ null := fun hnull =>
      hpl.null_notMem_regions (hnull ▸ mem_of_counts hpos)
    have hcounts : u.counts = s.counts.acquire (s.ptext s0) := by
      rw [hcounts, held_cons hne]
      rfl
    have hcount : 0 < u.counts.count (s.ptext s0) := by
      rw [hcounts, Counts.acquire_count_self]
      exact Nat.succ_pos _
    rw [counts_release hup (mem_of_counts hcount) hcount, hcounts]
    exact Counts.release_acquire hpos

theorem ecallFork_pcbs (s : Kernel) (s0 : Ptr) (hg : g.Enough) : (s.ecallFork s0 g).pcbs = g.pcb :: s.pcbs := by
  rw [ecallFork_eq hg]
  exact if_neg hg.2.1

theorem ecallFork_exited (s : Kernel) (s0 : Ptr) (hg : g.Enough) :
    (s.ecallFork s0 g).exited = s.exited.filter (· ≠ g.pcb) := by
  rw [ecallFork_eq hg]
  rfl

variable (hpcb : s.Grants g.pcb pcbSize)
  (hregion : (s.allocPcb g.pcb).Grants g.region memoryRegionStructSize) (hg : g.Enough)

include hpcb hregion hg

omit hpcb in
/-- The child's record has what was there, and one more. -/
theorem forkRegion_count (htext : s.ptext s0 = null ∨ s.ptext s0 ∈ s.regions) :
    word ((s.forkStart s0 g).forkRegion s0 g) g.region memoryRegionRefCount = s.refCount g.region + 1 := by
  have hsame : word (s.forkStart s0 g).mem g.region memoryRegionRefCount = s.refCount g.region := by
    refine (forkStart_alters s s0 g).word ?_
    simp only [List.forall_mem_cons]
    refine ⟨fun x hx hx' => ?_, fun x hx hx' => ?_, by simp⟩
    · exact hregion.count_apart hg.2.2 htext x hx (has_of_part hx' (by decide))
    · exact (forkRegion_apart hregion hg).2 x (has_of_part hx' (by decide)) hx
  simp (disch := decide) only [forkRegion, word_setWord_ne, aquireMemorySegment, if_neg hg.2.2, word_setWord,
    hsame]

/-- **A fork** takes the text region for the child, and a new record, whose count is what was there and
one more. -/
theorem ecallFork_counts (h : s.CountInv) (hs0 : s0 ∈ s.pcbs) (hlive : s0 ∉ s.exited)
    (hn : g.a2.toNat ≤ pcbSize) (hzero : s.refCount g.region = 0) :
    (s.ecallFork s0 g).counts = s.counts.acquireAll ([s.ptext s0, g.region].filter (· ≠ null)) := by
  have hpl := h.ring.placed
  have htext := h.ptext_pos hs0 hlive
  have hpcbs : (s.forkStart s0 g).pcbs = g.pcb :: s.pcbs := if_neg hg.2.1
  have hstart : (s.forkStart s0 g).Placed := hpl.cons_pcb hpcb hg.2.1 hpcbs rfl
  have hgrants : (s.forkStart s0 g).Grants g.region memoryRegionStructSize := hregion
  let made : Kernel := { s.forkStart s0 g with
    regions := g.region :: s.regions, mem := (s.forkStart s0 g).forkRegion s0 g }
  have hmade : made.Placed := hstart.cons_region hgrants hg.2.2 rfl rfl
  have hcount : made.refCount g.region = 1 := by
    refine (forkRegion_count hregion hg (htext.imp id mem_of_counts)).trans ?_
    rw [hzero]
    rfl
  have hstores : (s.ecallFork s0 g).counts = made.counts := by
    rw [ecallFork_eq hg]
    refine counts_of_alters (forkStores_alters made.mem s.csr hn) ?_ rfl rfl
    have hin : ∀ p ∈ g.pcb :: s.pcbs, p ∈ made.pcbs := fun p hp => hpcbs ▸ hp
    simp only [List.forall_mem_cons]
    rw [pcbSpan, ← part_zero]
    exact ⟨hmade.sparesCounts (hin _ List.mem_cons_self) (by decide),
      hmade.sparesCounts (hin _ (List.mem_cons_of_mem _ hs0)) (by decide),
      hmade.sparesCounts (hin _ (List.mem_cons_of_mem _ hs0)) (by decide), by simp⟩
  have hheld : [s.ptext s0, g.region].filter (· ≠ null) = [s.ptext s0].filter (· ≠ null) ++ [g.region] := by
    rw [← List.singleton_append, List.filter_append, held_cons hg.2.2]
    rfl
  rw [hstores, counts_make hgrants hg.2.2 (forkRegion_alters _ s0 g) hcount rfl rfl,
    forkStart_counts h hs0 hlive hpcb, hheld, Counts.acquireAll_append]
  rfl

end Fork

/-- **A child comes in.** -/
theorem CountInv.fork {g : ForkGrants} (h : s.CountInv) (hcur : s.currentPcb ≠ null)
    (hpcb : s.Grants g.pcb pcbSize) (hregion : (s.allocPcb g.pcb).Grants g.region memoryRegionStructSize)
    (hg : g.Enough) (hsafe : s.CountSafe (.fork g)) (hreleased : s.released = [])
    (ht : s.ecallFork s.currentPcb g = t) (hring : t.RingInv) : t.CountInv ∧ s.FreedExactly t := by
  obtain ⟨⟨htext, hcopy⟩, hlive, hchild⟩ := hsafe
  obtain ⟨hlo, hzero⟩ := hchild hg
  obtain ⟨-, hhi⟩ := hcopy hg
  have hmem := h.ring.ring.current_mem hcur
  have hpl := h.ring.placed
  have hcounts := ecallFork_counts hpcb hregion hg h hmem hlive hhi hzero
  have hfork := ecallFork_forked hpl hmem hpcb hregion hg hhi htext
  have hpcbs := ecallFork_pcbs s s.currentPcb hg
  have hexited := ecallFork_exited s s.currentPcb hg
  rw [ht] at hcounts hfork hpcbs hexited
  have hnew : g.pcb ∉ t.exited := by
    rw [hexited]
    simp
  have hdiff : s.ptext s.currentPcb ≠ g.region := by
    intro heq
    have hin := mem_of_counts ((h.ptext_pos hmem hlive).resolve_left (heq ▸ hg.2.2))
    exact Grants.notMem_regions hregion hg.2.2 (heq ▸ hin)
  have hheld : t.held g.pcb = [s.ptext s.currentPcb, g.region].filter (· ≠ null) := by
    rw [held, hfork.child_ptext hlo, hfork.child_pdata]
  have hkeep : ∀ p ∈ s.pcbs, p ∈ t.exited ↔ p ∈ s.exited := by
    intro p hp
    rw [hexited]
    exact hpl.mem_filter hpcb hp s.exited
  have hsame : ∀ r, ∀ p ∈ s.pcbs, t.holds r p = s.holds r p := fun r p hp =>
    holds_congr (hkeep p hp) (hfork.ptext p hp) (hfork.pdata p hp)
  refine ⟨⟨hring, fun r => ?_, ?_⟩, freedExactly_of_le ?_ fun r => ?_⟩
  · rw [users, hpcbs, hcounts, ← hheld]
    refine Counts.enter hsame h.counts ?_ (fun r => mem_held hnew) r
    rw [hheld]
    exact held_nodup_of_ne hdiff
  · rw [hpcbs]
    refine List.forall_mem_cons.2 ⟨fun _ heq => ?_, fun p hp => ?_⟩
    · rw [hfork.child_ptext hlo, hfork.child_pdata] at heq
      exact absurd heq hdiff
    · rw [hkeep p hp, hfork.ptext p hp, hfork.pdata p hp]
      exact h.apart p hp
  · exact (congrArg Counts.freed hcounts).trans (Counts.acquireAll_freed.trans hreleased)
  · rw [users, users, hpcbs, holders_cons (hsame r)]
    exact Nat.le_add_right _ _

section Segments

variable {segs : List Segment}

/-- Each segment comes with a record of its own. -/
theorem GrantsSegments.notMem (h : s.GrantsSegments segs) :
    ∀ r ∈ segs.map Segment.region, r ≠ null ∧ r ∉ s.regions := by
  induction segs generalizing s with
  | nil => exact fun r hr => absurd hr List.not_mem_nil
  | cons seg segs ih =>
    obtain ⟨hne, hgrant, hrest⟩ := h
    refine List.forall_mem_cons.2 ⟨⟨hne, hgrant.notMem_regions hne⟩, fun r hr => ?_⟩
    exact ⟨(ih hrest r hr).1, fun hmem => (ih hrest r hr).2 (List.mem_cons_of_mem _ hmem)⟩

theorem GrantsSegments.nodup (h : s.GrantsSegments segs) : (segs.map Segment.region).Nodup := by
  induction segs generalizing s with
  | nil => exact List.nodup_nil
  | cons seg segs ih =>
    obtain ⟨-, -, hrest⟩ := h
    exact List.nodup_cons.2 ⟨fun hmem => (hrest.notMem _ hmem).2 List.mem_cons_self, ih hrest⟩

/-- And its bytes are in no count. -/
theorem GrantsSegments.sparesCounts (h : s.GrantsSegments segs) :
    ∀ b ∈ segs.map fun seg => regionSpan seg.region, s.SparesCounts b := by
  induction segs generalizing s with
  | nil => exact fun b hb => absurd hb List.not_mem_nil
  | cons seg segs ih =>
    obtain ⟨hne, hgrant, hrest⟩ := h
    refine List.forall_mem_cons.2 ⟨fun r hr x hx hx' => ?_, fun b hb r hr => ?_⟩
    · exact (hgrant.resolve_left hne).2.2 r hr x hx (has_of_part hx' (by decide))
    · exact ih hrest b hb r (List.mem_cons_of_mem _ hr)

/-- **The loader** makes a record with a count of one. -/
theorem counts_segment {seg : Segment} (hg : s.Grants seg.region memoryRegionStructSize)
    (hne : seg.region ≠ null) :
    ({ s with
      mem := setWord (setWord (setWord s.mem seg.region memoryRegionPhysicalBase seg.umem) seg.region
        memoryRegionSize seg.pheader.pMemsz) seg.region memoryRegionRefCount 1
      regions := seg.region :: s.regions } : Kernel).counts = s.counts.acquire seg.region := by
  have hpart : ∀ {i n : Nat}, i + n ≤ memoryRegionStructSize →
      Covered [regionSpan seg.region] (part seg.region i n) := fun hi => .part List.mem_cons_self hi
  refine counts_make hg hne ?_ (word_setWord _ _ _ _) rfl rfl
  exact (((Alters.refl _ s.mem).setWord (hpart (by decide))).setWord (hpart (by decide))).setWord
    (hpart (by decide))

theorem allocSegments_counts (hsegs : s.GrantsSegments segs) :
    (s.allocSegments segs).counts = s.counts.acquireAll (segs.map Segment.region) := by
  induction segs generalizing s with
  | nil => rfl
  | cons seg segs ih =>
    obtain ⟨hne, hgrant, hrest⟩ := hsegs
    rw [allocSegments]
    refine Eq.trans (ih ?_) ?_
    · exact hrest.congr rfl rfl
    · rw [counts_segment hgrant hne]
      rfl

variable (hdr : ElfEhdr) {seg : Segment} {image : ProcessImage}

theorem imageSegment_ptext : (imageSegment image hdr seg.pheader seg.region).ptextMemoryRegion =
    if seg.isText then seg.region else image.ptextMemoryRegion := by
  rw [imageSegment, Segment.isText]
  by_cases h : seg.pheader.pFlags &&& pfX ≠ 0
  · rw [if_pos h, if_pos (decide_eq_true h)]
  · rw [if_neg h, if_neg (by simpa using h)]

theorem imageSegment_pdata : (imageSegment image hdr seg.pheader seg.region).pdataMemoryRegion =
    if seg.isText then image.pdataMemoryRegion else seg.region := by
  rw [imageSegment, Segment.isText]
  by_cases h : seg.pheader.pFlags &&& pfX ≠ 0
  · rw [if_pos h, if_pos (decide_eq_true h)]
  · rw [if_neg h, if_neg (by simpa using h)]

/-- With at most one segment of each kind, the image refers to the records of all of them. -/
theorem imageOf_held (h : segs.Pairwise fun a b => a.isText ≠ b.isText)
    (hne : ∀ r ∈ segs.map Segment.region, r ≠ null) :
    ([(imageOf hdr segs).ptextMemoryRegion, (imageOf hdr segs).pdataMemoryRegion].filter (· ≠ null)).Perm
      (segs.map Segment.region) := by
  rw [imageOf]
  match segs with
  | [] => exact List.Perm.refl _
  | [a] =>
    have ha : a.region ≠ null := hne _ List.mem_cons_self
    simp only [List.foldl_cons, List.foldl_nil, imageSegment_ptext, imageSegment_pdata]
    cases a.isText
    · rw [if_neg (by decide), if_neg (by decide), held_null, held_cons ha]
      exact List.Perm.refl _
    · rw [if_pos rfl, if_pos rfl, held_cons ha, held_null]
      exact List.Perm.refl _
  | [a, b] =>
    have ha : a.region ≠ null := hne _ List.mem_cons_self
    have hb : b.region ≠ null := hne _ (List.mem_cons_of_mem _ List.mem_cons_self)
    have hab : a.isText ≠ b.isText := (List.pairwise_cons.1 h).1 b List.mem_cons_self
    simp only [List.foldl_cons, List.foldl_nil, imageSegment_ptext, imageSegment_pdata]
    cases hta : a.isText <;> cases htb : b.isText
    · exact absurd (hta.trans htb.symm) hab
    · simp only [Bool.false_eq_true, if_true, if_false]
      rw [held_cons hb, held_cons ha]
      exact List.Perm.swap _ _ _
    · simp only [Bool.false_eq_true, if_true, if_false]
      rw [held_cons ha, held_cons hb]
      exact List.Perm.refl _
    · exact absurd (hta.trans htb.symm) hab
  | a :: b :: c :: segs =>
    -- there are two kinds only
    obtain ⟨ha, hbc⟩ := List.pairwise_cons.1 h
    have hab := ha b List.mem_cons_self
    have hac := ha c (List.mem_cons_of_mem _ List.mem_cons_self)
    have hbc := (List.pairwise_cons.1 hbc).1 c List.mem_cons_self
    revert hab hac hbc
    cases a.isText <;> cases b.isText <;> cases c.isText <;> simp

end Segments

theorem finishStores_alters (m : Mem) (pcb : Ptr) (image : ProcessImage) (d : Word) :
    Alters [pcbSpan pcb] m (finishStores m pcb image d) := by
  have hpart : ∀ {i n : Nat}, i + n ≤ pcbSize → Covered [pcbSpan pcb] (part pcb i n) :=
    fun hi => .part List.mem_cons_self hi
  exact ((((((((Alters.refl _ m).setWord (hpart (by decide))).setWord (hpart (by decide))).setWord
    (hpart (by decide))).setWord (hpart (by decide))).setWord (hpart (by decide))).setWord
      (hpart (by decide))).setWord (hpart (by decide))).setByte (hpart (by decide))

/-- **The end of a load** lets go of the regions that the process had. -/
theorem elfFinishDone_counts {image : ProcessImage} {d : Word} (hpl : s.Placed) (hpcb : pcb ∈ s.pcbs)
    (htext : s.ptext pcb = null ∨ 0 < s.counts.count (s.ptext pcb))
    (hdata : s.pdata pcb = null ∨ 0 < s.counts.count (s.pdata pcb))
    (hne : s.ptext pcb = s.pdata pcb → s.ptext pcb = null) :
    (s.elfFinishDone pcb image d).counts = s.counts.releaseAll (s.held pcb) := by
  have hstack : (s.finishStack pcb image).counts = s.counts :=
    counts_of_alters (alters_setWord _ _ _ _)
      (List.forall_mem_singleton.2 (hpl.sparesCounts hpcb (by decide))) rfl rfl
  have hplaced : (s.finishStack pcb image).Placed := hpl.congr rfl rfl
  have hrelease : (s.finishRelease pcb image).counts = s.counts.releaseAll (s.held pcb) := by
    rw [finishRelease, finishText_pdata hpl hpcb (hpl.regionOutside (htext.imp id mem_of_counts)), finishText,
      finishStack_ptext, counts_releaseBoth hplaced ?_ ?_ hne, hstack, held]
    · rw [hstack]
      exact htext
    · rw [hstack]
      exact hdata
  have hbooks := finishRelease_books s pcb image
  rw [elfFinishDone_eq, ← hrelease]
  refine counts_of_alters (finishStores_alters _ pcb image d) (List.forall_mem_singleton.2 ?_) rfl rfl
  rw [pcbSpan, ← part_zero]
  refine Placed.sparesCounts (hpl.sublist ?_ (finishRelease_regions s pcb image)) ?_ (by decide)
  · rw [hbooks.pcbs]
  · rw [hbooks.pcbs]
    exact hpcb

theorem held_congr (hptext : t.ptext p = s.ptext p) (hpdata : t.pdata p = s.pdata p) :
    t.held p = s.held p := by rw [held, hptext, hpdata, held]

theorem loadedStart_counts {segs : List Segment} (pcb : Ptr) (hsegs : s.GrantsSegments segs) :
    (s.loadedStart pcb segs).counts =
      ({ s.counts with freed := [] } : Counts Ptr).acquireAll (segs.map Segment.region) :=
  allocSegments_counts (hsegs.congr rfl rfl)

theorem ptext_null_of_nodup (h : (s.held p).Nodup) (heq : s.ptext p = s.pdata p) : s.ptext p = null := by
  by_contra hne
  rw [held, ← heq, held_cons hne, held_cons hne] at h
  simp at h

theorem kexecve_alters (s : Kernel) (slab : Ptr) : Alters [pcbSpan slab] s.mem (s.kexecve slab).mem := by
  have hpart : ∀ {i n : Nat}, i + n ≤ pcbSize → Covered [pcbSpan slab] (part slab i n) :=
    fun hi => .part List.mem_cons_self hi
  exact (((((Alters.refl _ s.mem).setByte (hpart (by decide))).setByte (hpart (by decide))).setWord
    (hpart (by decide))).setWord (hpart (by decide))).setWord (hpart (by decide))

namespace CountInv

section Loaded

variable {hdr : ElfEhdr} {segs : List Segment} {d : Word}

/-- The records of the segments count one, and nobody refers to them yet. -/
theorem loadedStart_count (h : s.CountInv) (pcb : Ptr) (hsegs : s.GrantsSegments segs) :
    (s.loadedStart pcb segs).counts.count r =
      s.users r + if r ∈ segs.map Segment.region then 1 else 0 := by
  rw [loadedStart_counts pcb hsegs, Counts.acquireAll_count hsegs.nodup, ← h.counts]

theorem loaded_counts (h : s.CountInv) (hdr : ElfEhdr) (d : Word) (hmem : pcb ∈ s.pcbs) (hlive : pcb ∉ s.exited)
    (hsegs : s.GrantsSegments segs) :
    ((s.loadedStart pcb segs).elfFinishDone pcb (imageOf hdr segs) d).counts =
      (s.loadedStart pcb segs).counts.releaseAll (s.held pcb) := by
  have hsame : s.Same (s.loadedStart pcb segs) := loadedStart_same pcb hsegs
  have hptext := hsame.ptext pcb hmem
  have hpdata := hsame.pdata pcb hmem
  have hpos : ∀ {r}, r = null ∨ 0 < s.counts.count r →
      r = null ∨ 0 < (s.loadedStart pcb segs).counts.count r := by
    refine fun {r} => Or.imp id fun hr => ?_
    rw [h.loadedStart_count pcb hsegs, ← h.counts]
    exact Nat.lt_of_lt_of_le hr (Nat.le_add_right _ _)
  rw [elfFinishDone_counts (loadedStart_placed h.ring.placed hsegs), held_congr hptext hpdata]
  · rw [(loadedStart_books s pcb segs).pcbs]
    exact hmem
  · rw [hptext]
    exact hpos (h.ptext_pos hmem hlive)
  · rw [hpdata]
    exact hpos (h.pdata_pos hmem hlive)
  · rw [hptext, hpdata]
    exact h.apart pcb hmem hlive

/-- **A load that went through** exchanges the regions of the process for those of the image. -/
theorem loaded (h : s.CountInv) (hload : pcb ∈ s.loads) (hsegs : s.GrantsSegments segs)
    (hsafe : s.CountSafe (.loaded pcb hdr segs d))
    (ht : (s.loadedStart pcb segs).elfFinishDone pcb (imageOf hdr segs) d = t) (hring : t.RingInv) :
    t.CountInv ∧ s.FreedExactly t := by
  obtain ⟨hringSafe, hlive, hkinds⟩ := hsafe
  have hmem := h.ring.loads hload
  have hcounts := h.loaded_counts hdr d hmem hlive hsegs
  have hfinished := h.ring.loaded hload hsegs hringSafe
  have hbooks := loaded_books s pcb segs (imageOf hdr segs) d
  rw [ht] at hcounts hfinished hbooks
  have hpcbs : t.pcbs = s.pcbs := hbooks.pcbs
  have hexited : t.exited = s.exited := hbooks.exited
  have hsame : s.Same (s.loadedStart pcb segs) := loadedStart_same pcb hsegs
  have hstart := (loadedStart_books s pcb segs).pcbs
  have htext : ∀ p ∈ s.pcbs, p ≠ pcb → t.ptext p = s.ptext p := fun p hp hne =>
    (hfinished.ptext p (hstart ▸ hp) hne).trans (hsame.ptext p hp)
  have hdata : ∀ p ∈ s.pcbs, p ≠ pcb → t.pdata p = s.pdata p := fun p hp hne =>
    (hfinished.pdata p (hstart ▸ hp) hne).trans (hsame.pdata p hp)
  have hperm : (t.held pcb).Perm (segs.map Segment.region) := by
    rw [held, hfinished.ptext_pcb, hfinished.pdata_pcb]
    exact imageOf_held hdr hkinds fun r hr => (hsegs.notMem r hr).1
  have hnew : ∀ r, t.holds r pcb = decide (r ∈ segs.map Segment.region) := by
    intro r
    rw [Bool.eq_iff_iff, decide_eq_true_iff, ← hperm.mem_iff, mem_held (hexited ▸ hlive)]
  have hfresh : ∀ r ∈ segs.map Segment.region, s.users r = 0 := fun r hr =>
    (h.counts r).symm.trans (counts_of_notMem (hsegs.notMem r hr).2)
  have hfreed : (s.loadedStart pcb segs).counts.freed = [] := by
    rw [loadedStart_counts pcb hsegs, Counts.acquireAll_freed]
  obtain ⟨hexact, hfreed⟩ := h.exchange hmem hlive (fun _ => h.loadedStart_count pcb hsegs) hfreed hfresh
    hcounts hpcbs (fun r x hx hne => holds_congr (by rw [hexited]) (htext x hx hne) (hdata x hx hne)) hnew
  refine ⟨⟨hring, hexact, fun p hp hin heq => ?_⟩, hfreed⟩
  rw [hpcbs] at hp
  rw [hexited] at hin
  by_cases hne : p = pcb
  · subst hne
    exact ptext_null_of_nodup (hperm.nodup_iff.2 hsegs.nodup) heq
  · rw [htext p hp hne] at heq ⊢
    exact h.apart p hp hin (heq.trans (hdata p hp hne))

/-- **A load that failed** gives its records back. -/
theorem loadFailed_regions (h : s.CountInv) (hsegs : s.GrantsSegments segs)
    (hkinds : segs.Pairwise fun a b => a.isText ≠ b.isText) :
    r ∈ ((s.loadedStart pcb segs).elfFinishError pcb (imageOf hdr segs)).regions ↔ r ∈ s.regions := by
  have hperm := imageOf_held hdr hkinds fun r hr => (hsegs.notMem r hr).1
  have hplaced : (s.loadedStart pcb segs).Placed := loadedStart_placed h.ring.placed hsegs
  have hnodup := hplaced.nodup_regions
  have hregions : r ∈ (s.loadedStart pcb segs).regions ↔ r ∈ segs.map Segment.region ∨ r ∈ s.regions := by
    rw [loadedStart, allocSegments_regions, List.mem_append, List.mem_reverse]
  have hmem : r ∈ ((s.loadedStart pcb segs).elfFinishError pcb (imageOf hdr segs)).regions ↔
      r ≠ (imageOf hdr segs).pdataMemoryRegion ∧ r ≠ (imageOf hdr segs).ptextMemoryRegion ∧
        r ∈ (s.loadedStart pcb segs).regions :=
    ((hnodup.erase _).mem_erase_iff).trans (and_congr_right fun _ => hnodup.mem_erase_iff)
  have himage : r ∈ segs.map Segment.region ↔ (r = (imageOf hdr segs).ptextMemoryRegion ∨
      r = (imageOf hdr segs).pdataMemoryRegion) ∧ r ≠ null := by
    rw [← hperm.mem_iff, List.mem_filter, decide_eq_true_iff, List.mem_cons, List.mem_singleton]
  have hold : r ∈ s.regions → r ≠ null ∧ r ∉ segs.map Segment.region := fun hr =>
    ⟨fun hnull => h.ring.placed.null_notMem_regions (hnull ▸ hr), fun hin => (hsegs.notMem r hin).2 hr⟩
  rw [hmem, hregions]
  grind

theorem loadFailed_counts (h : s.CountInv) (hmem : pcb ∈ s.pcbs) (hsegs : s.GrantsSegments segs)
    (hkinds : segs.Pairwise fun a b => a.isText ≠ b.isText) :
    ((s.loadedStart pcb segs).elfFinishError pcb (imageOf hdr segs)).counts.count = s.counts.count := by
  refine counts_congr (fun r => h.loadFailed_regions hsegs hkinds) fun r hr => ?_
  have hstart : (s.loadedStart pcb segs).refCount r = s.refCount r :=
    (loadedStart_alters s pcb segs).word fun b hb => hsegs.sparesCounts b hb r hr
  refine Eq.trans ((alters_setByte _ pcb pcbStatus stateReady).word (List.forall_mem_singleton.2 ?_)) hstart
  exact h.ring.placed.sparesCounts hmem (by decide) r hr

end Loaded

/-- **The first process** refers to nothing. -/
theorem kexecve {slab : Ptr} (h : s.CountInv) (hslab : s.Grants slab pcbSize)
    (hsafe : s.CountSafe (.kexecve slab)) (ht : ({ s with released := [] } : Kernel).kexecve slab = t)
    (hring : t.RingInv) : t.CountInv ∧ s.FreedExactly t := by
  obtain ⟨⟨hnil, hne⟩, -⟩ := hsafe
  have hpcbs : t.pcbs = [slab] := by
    rw [← ht]
    simp [Kernel.kexecve, elfLoadSubmit, allocPcb, hne, hnil]
  have hptext : t.ptext slab = null := ht ▸ kexecve_ptext _ slab
  have hpdata : t.pdata slab = null := ht ▸ kexecve_pdata _ slab
  have hcounts : t.counts = ({ s with released := [] } : Kernel).counts := by
    have hspan := h.ring.placed.sparesCounts_of_grants hslab (by decide)
    rw [← ht]
    exact counts_of_alters (kexecve_alters _ slab) (List.forall_mem_singleton.2 hspan) rfl rfl
  have hnone : ∀ r, s.users r = 0 := fun r => by rw [users, hnil]; rfl
  have hnobody : ∀ r, t.users r = 0 := by
    intro r
    have hfree : t.holds r slab = false := by
      rw [holds, hptext, hpdata, decide_eq_false_iff_not]
      rintro ⟨hr, -, hnull | hnull⟩
      · exact hr hnull.symm
      · exact hr hnull.symm
    rw [users, hpcbs, holders, List.countP_cons, hfree]
    rfl
  refine ⟨⟨hring, fun r => ?_, fun p hp _ _ => ?_⟩, freedExactly_of_le ?_ fun r => ?_⟩
  · rw [hcounts, hnobody, ← hnone r]
    exact h.counts r
  · rw [hpcbs, List.mem_singleton] at hp
    rw [hp, hptext]
  · exact congrArg Counts.freed hcounts
  · rw [hnone]
    exact Nat.zero_le _

end CountInv

/-- **Exit** lets go of both regions. -/
theorem CountInv.exit {junk : Word} (h : s.CountInv) (hcur : s.currentPcb ≠ null)
    (hsafe : s.CountSafe (.exit junk)) (hexit : s.ecall.ecallExit s.currentPcb junk = some t)
    (hring : t.RingInv) : t.CountInv ∧ s.FreedExactly t := by
  obtain ⟨hringSafe, hlive, hmisread⟩ := hsafe
  have hmem := h.ring.ring.current_mem hcur
  obtain ⟨hsame, hbooks⟩ := h.ring.exit hcur hringSafe hexit
  obtain rfl := Option.some.inj ((ecallExit_quiet hringSafe.2.2).symm.trans hexit)
  have hmark : (s.ecall.exitMark s.currentPcb).counts = s.ecall.counts := by
    refine counts_of_alters (exitMark_alters _ _) ?_ rfl rfl
    simp only [List.forall_mem_cons]
    exact ⟨h.ring.ecall.placed.sparesCounts hmem (by decide),
      h.ring.ecall.placed.sparesCounts hmem (by decide), by simp⟩
  have hcounts : (s.ecall.exitRelease s.currentPcb junk).1.counts =
      s.ecall.counts.releaseAll (s.held s.currentPcb) := by
    rw [exitRelease]
    simp only
    rw [hmisread, exitText, exitMark_ptext, counts_releaseBoth, hmark]
    · rfl
    · exact h.ring.placed.congr rfl rfl
    · rw [hmark]
      exact h.ptext_pos hmem hlive
    · rw [hmark]
      exact h.pdata_pos hmem hlive
    · exact h.apart _ hmem hlive
  have hexited : ∀ p, p ≠ s.currentPcb →
      (p ∈ (s.ecall.exitRelease s.currentPcb junk).1.exited ↔ p ∈ s.exited) := by
    intro p hp
    rw [hbooks.exited, List.mem_cons]
    exact or_iff_right hp
  have hcount : ∀ r, s.ecall.counts.count r = s.users r + if r ∈ ([] : List Ptr) then 1 else 0 := by
    intro r
    rw [if_neg List.not_mem_nil]
    exact h.counts r
  have hnone : ∀ r, (s.ecall.exitRelease s.currentPcb junk).1.holds r s.currentPcb =
      decide (r ∈ ([] : List Ptr)) := by
    intro r
    rw [holds, hbooks.exited]
    simp
  obtain ⟨hexact, hfreed⟩ := h.exchange hmem hlive hcount rfl (by simp) hcounts hbooks.pcbs
    (fun r x hx hne => holds_congr (hexited x hne) (hsame.ptext x hx) (hsame.pdata x hx)) hnone
  refine ⟨⟨hring, hexact, ?_⟩, hfreed⟩
  intro p hp hexit
  rw [hbooks.pcbs] at hp
  rw [hsame.ptext p hp, hsame.pdata p hp]
  refine h.apart p hp fun hin => hexit ?_
  rw [hbooks.exited]
  exact List.mem_cons_of_mem _ hin

/-- **One step** keeps the counts, and frees exactly what has lost its last user. -/
theorem Step.counts (hstep : s.Step idle e t) (hsafe : s.CountSafe e) (h : s.CountInv) :
    t.CountInv ∧ s.FreedExactly t := by
  have hring := hstep.ring hsafe.1 h.ring
  have hkept := hstep.kept hsafe.1 h.ring
  cases hstep with
  | kexecve slab hslab => exact h.kexecve hslab hsafe rfl hring
  | fork g hrun hcur hpcb hregion =>
    by_cases hg : g.Enough
    · exact h.ecall.fork hcur hpcb hregion hg hsafe rfl rfl hring
    · have hmem := h.ring.ring.current_mem hcur
      have hcounts := ecallFork_fail_counts h.ecall hmem hsafe.2.1 hpcb hg
      obtain ⟨hbooks, -⟩ := ecallFork_fail_books s.currentPcb h.ecall.ring.placed hpcb hg
      exact h.ecall.kept hring (congrArg Counts.count hcounts) (congrArg Counts.freed hcounts) hbooks.pcbs
        hbooks.exited (h.ring.forkFail hcur hpcb hsafe.1.1 hg)
  | exit junk hrun hcur hexit => exact h.exit hcur hsafe hexit hring
  | execve hrun hcur =>
    exact h.kept hring rfl rfl rfl (fun _ _ => Iff.rfl)
      ⟨fun _ _ => rfl, fun _ _ => rfl, fun _ _ => rfl, fun _ _ => rfl⟩
  | loaded pcb hdr segs d hload hsegs => exact h.loaded hload hsegs hsafe rfl hring
  | loadFailed pcb hdr segs hload hsegs =>
    have hmem := h.ring.loads hload
    have hbooks := loadFailed_books s pcb segs (imageOf hdr segs)
    have hpcbs := (loadedStart_books s pcb segs).pcbs
    have hstatus : (s.loadedStart pcb segs).Same
        ((s.loadedStart pcb segs).elfFinishError pcb (imageOf hdr segs)) :=
      same_of_status (loadedStart_placed h.ring.placed hsegs) (hpcbs ▸ hmem) rfl
    have hsame := (loadedStart_same pcb hsegs).trans hstatus (hpcbs ▸ List.Subset.refl _)
    have hreleased := (congrArg Counts.freed (loadedStart_counts pcb hsegs)).trans
      Counts.acquireAll_freed
    exact h.kept hring (h.loadFailed_counts hmem hsegs hsafe.2) hreleased hbooks.pcbs
      (fun p _ => by rw [← loadedStart, hbooks.exited]) hsame
  | write made hrun hcur hwrite =>
    obtain ⟨hmade, -⟩ := h.ecall.ring.ttyMakeRequest hcur hsafe.1
    obtain ⟨hpcbs, hsame⟩ := h.ring.write hcur hsafe.1 hwrite
    obtain ⟨a0, -, hdecided⟩ := schedule_decided hwrite
    have hcounts := (hdecided.counts hmade).trans (ttyMakeRequest_counts h.ecall.ring hcur hsafe.2)
    have hexited : t.exited = s.exited := hdecided.exited.trans (by cases made <;> rfl)
    exact h.ecall.kept hring (congrArg Counts.count hcounts) (congrArg Counts.freed hcounts) hpcbs
      (fun p _ => by rw [hexited]; rfl) hsame
  | completed pcb =>
    have hmem := h.ring.requests hsafe.1
    exact h.kept hring (unblock_counts h.ring.placed hmem _) rfl rfl (fun _ _ => Iff.rfl)
      (same_of_status h.ring.placed hmem rfl)
  | schedule hdecide =>
    obtain ⟨a0, -, hdecided⟩ := schedule_decided hdecide
    have hcounts := hdecided.counts h.ring.begin
    exact h.begin.kept hring (congrArg Counts.count hcounts) (congrArg Counts.freed hcounts) hdecided.pcbs
      (fun p _ => by rw [hdecided.exited]) (hdecided.same h.ring.begin.placed h.ring.begin.ring)
  | others m csr hothers =>
    exact h.kept hring hothers.counts rfl rfl (fun _ _ => Iff.rfl)
      ⟨hothers.next, hothers.ptext, hothers.pdata, fun p hp => hothers.process p hp _ (le_refl _) (by decide)⟩

theorem Booted.countInv (h : s.Booted) : s.CountInv where
  ring := h.ringInv
  counts r := by
    rw [users, h.pcbs, counts_of_notMem]
    · rfl
    · simp [h.regions]
  apart := by simp [h.pcbs]

/-- **Along a whole run.** -/
theorem Reach.countInv (h : Reach idle Booted CountSafe s) : s.CountInv := by
  induction h with
  | start h => exact h.countInv
  | step _ hsafe hstep ih => exact (hstep.counts hsafe ih).1

/-- The registers of a process are its own. -/
theorem Placed.others (h : s.Placed) (hp : p ∈ s.pcbs) (v : Word) : s.Others (setWord s.mem p tfRa v) := by
  have halter := alters_setWord s.mem p tfRa v
  have hspares : ∀ {i n : Nat}, 4 ≤ i → i + n ≤ pcbSize → s.Spares i n (part p tfRa 4) :=
    fun hi hn => h.spares hp (Or.inl hi) (by decide) hn
  constructor
  · exact fun q hq => halter.word (List.forall_mem_singleton.2 (hspares (by decide) (by decide) q hq))
  · exact fun q hq => halter.word (List.forall_mem_singleton.2 (hspares (by decide) (by decide) q hq))
  · exact fun q hq => halter.word (List.forall_mem_singleton.2 (hspares (by decide) (by decide) q hq))
  · intro q hq i hlo hhi
    refine halter.byte (List.forall_mem_singleton.2 (hspares ?_ ?_ q hq))
    · exact Nat.le_trans (by decide) hlo
    · exact (Nat.succ_le_succ hhi).trans (by decide)
  · intro r hr i hi
    refine halter.byte (List.forall_mem_singleton.2 ?_)
    exact (h.cross p hp r hr).part (by decide) hi

end Kernel

open Kernel

/-- **The reference counts.**  In every state reached from boot by events that keep them, the count of each
record handed out is the number of processes that refer to it, and each such step frees exactly the regions
that lose their last user in it, once. -/
theorem region_counts (idle : Word) (s : Kernel) (h : Reach idle Booted CountSafe s) :
    s.CountsExact ∧ ∀ e t, s.CountSafe e → s.Step idle e t → s.FreedExactly t :=
  ⟨h.countInv.exact, fun _ _ hsafe hstep => (hstep.counts hsafe h.countInv).2⟩

/-- The first process has put the address of its own PCB in `ra`, and `exit` finds what it looks for. -/
def forkAimed : Kernel :=
  { forkDone 164 with released := [], mem := setWord (forkDone 164).mem 0x1000 tfRa 0x1000, csr := ⟨0, 0, 0⟩ }

def forkLeft : Kernel := (forkAimed.ecall.ecallExit forkAimed.currentPcb 0x100).get (by decide +kernel)

/-- The data of the first process is freed, and the text is not, because the child uses it. -/
theorem region_counts_fork : ∃ s t, Reach 0x500 Booted CountSafe s ∧ s.Step 0x500 (.exit 0x100) t ∧
    t.released = [0x3010] ∧ s.CountsExact ∧ s.FreedExactly t := by
  have hload : forkStarted.CountSafe (.loaded 0x1000 forkHeader forkSegments 2) :=
    ⟨⟨by decide +kernel, by decide +kernel⟩, by decide +kernel, by decide⟩
  have hrun : Reach 0x500 Booted CountSafe forkRunning :=
    forkRunning_reach (forkStarted_reach ⟨⟨rfl, by decide⟩, trivial⟩ ⟨trivial, trivial⟩) hload
      ⟨trivial, trivial⟩
  have hcopy : forkRunning.CountSafe (.fork (forkGrants 164)) :=
    ⟨⟨by decide +kernel, fun _ => ⟨by decide, by decide⟩⟩, by decide +kernel,
      fun _ => ⟨by decide, by decide +kernel⟩⟩
  have hfork : Reach 0x500 Booted CountSafe (forkDone 164) := hrun.step hcopy (forkDone_step 164)
  have haimed : Reach 0x500 Booted CountSafe forkAimed :=
    hfork.step (e := .others _ _) ⟨trivial, trivial⟩ (.others _ _
      (hfork.countInv.ring.placed.others (by decide +kernel) 0x1000))
  have hquiet : forkAimed.CountSafe (.exit 0x100) :=
    ⟨⟨by decide +kernel, by decide +kernel, 0x1000, by decide +kernel, by decide, by decide +kernel⟩,
      by decide +kernel, by decide +kernel⟩
  have hstep : forkAimed.Step 0x500 (.exit 0x100) forkLeft :=
    .exit 0x100 (by decide +kernel) (by decide +kernel) (Option.some_get _).symm
  obtain ⟨hexact, hfreed⟩ := region_counts 0x500 forkAimed haimed
  exact ⟨forkAimed, forkLeft, haimed, hstep, by decide +kernel, hexact, hfreed _ _ hquiet hstep⟩

/-- With 0x100 in `ra` the region that `exit` finds is null, and the data of the process stays. -/
theorem exit_keeps_region : ¬ ∀ s, Reach 0x500 Booted (fun _ _ => True) s → s.CountsExact := by
  intro h
  have hrun : Reach 0x500 Booted (fun _ _ => True) forkRunning :=
    forkRunning_reach (forkStarted_reach trivial trivial) trivial trivial
  have hexit := (hrun.step trivial (forkDone_step 164)).step trivial forkExited_step
  exact absurd (h _ hexit 0x3010 (by decide +kernel)) (by decide +kernel)

end RiscyOS
