import RiscyOS.Process.ExitEnds

/-!
# Whom exit reports to

When a process exits while its parent waits for it, the parent is to get the exit code in its `a0` and the
PCB of the child is to be given back; when the parent does not wait, the child is to stay as a zombie until
it does.  `ecall_exit` has the two PCBs in `t0` and `a0` when it comes to `reap_child`, or had: the search
for the parent goes round the ring in `t0`, and returns that.

* `Kernel.ParentOf`, `Kernel.Waiting` — the parent, and whether it waits.
* `Kernel.HandedOver`, `Kernel.LeftZombie` — what exit is to do in the two cases.
* `Kernel.ExitLeft` — what it has done when the search ends, whatever the search has found.
* `Kernel.ExitMeets` — when that is right.  A parent that waits is reaped itself; exit does what it should
  only if the process has found itself and there was nothing to hand over.
* `exit_parent_iff` — and in no other case.
-/

set_option autoImplicit false

namespace RiscyOS

open Memory

namespace Kernel

variable {s t u v : Kernel} {p q r : Ptr} {junk : Word}

/-! ## What exit is to do -/

/-- What the running process passes to exit, as far as it goes into its PCB. -/
def exitCode (s : Kernel) : Byte := (word s.mem s.currentPcb tfA0).setWidth 8

/-- `p` is the parent of the running process. -/
structure ParentOf (s : Kernel) (p : Ptr) : Prop where
  mem : p ∈ s.pcbs
  ne : p ≠ s.currentPcb
  pid : s.pid p = byte s.mem s.currentPcb pcbPpid

/-- The process waits for a child. -/
def Waiting (s : Kernel) (p : Ptr) : Prop :=
  s.status p = stateBlocked ∧ byte s.mem p pcbWaitReason = waitingForChild

instance (s : Kernel) (p : Ptr) : Decidable (s.Waiting p) := inferInstanceAs (Decidable (_ ∧ _))

/-- The regions once the text and the data region of the running process have been released. -/
def ownReleased (s : Kernel) : Kernel := (s.exitText s.currentPcb).releaseMemorySegment (s.pdata s.currentPcb)

/-- **The regions of the running process have been released**: the same records are handed out, with the
same in them, and the same user memory has been given back. -/
structure RegionsReleased (s t : Kernel) : Prop where
  regions : t.regions = s.ownReleased.regions
  records : ∀ r ∈ t.regions, ∀ i < memoryRegionStructSize, byte t.mem r i = byte s.ownReleased.mem r i
  released : t.released = s.ownReleased.released

/-- **What exit is to do when the parent `p` waits.** -/
structure HandedOver (s t : Kernel) (p : Ptr) : Prop where
  regions : s.RegionsReleased t
  code : word t.mem p tfA0 = s.exitCode.setWidth 32
  freed : t.pcbs = s.pcbs.erase s.currentPcb

/-- **And when it does not.** -/
structure LeftZombie (s t : Kernel) (p : Ptr) : Prop where
  kept : s.currentPcb ∈ t.pcbs
  zombie : t.status s.currentPcb = stateZombie
  code : byte t.mem s.currentPcb pcbExitCode = s.exitCode
  parent : p ∈ t.pcbs
  parent_bytes : ∀ i < pcbSize, byte t.mem p i = byte s.mem p i

/-- Exit comes back, and does what it is to do. -/
def ExitRight (s : Kernel) (junk : Word) (p : Ptr) : Prop :=
  ∃ t, s.ecallExit s.currentPcb junk = some t ∧ (s.Waiting p → s.HandedOver t p) ∧
    (¬ s.Waiting p → s.LeftZombie t p)

/-! ## When it does -/

/-- The process looks for its parent, finds itself, and is marked as one that waits. -/
def FindsItself (s : Kernel) (junk : Word) : Prop :=
  s.exitFinds junk = some s.currentPcb ∧ byte s.mem s.currentPcb pcbWaitReason = waitingForChild

/-- **When exit is right.**  With a parent that does not wait it has to find some process, and not itself.
With one that waits it has to find just itself, and then there must have been nothing to do: the parent has
the code already, and what the saved `ra` leads to is as good as the process's own data region. -/
def ExitMeets (s : Kernel) (junk : Word) (p : Ptr) : Prop :=
  (¬ s.Waiting p → s.exitFinds junk ≠ some null ∧ ¬ s.FindsItself junk) ∧
    (s.Waiting p → s.FindsItself junk ∧ word s.mem p tfA0 = s.exitCode.setWidth 32 ∧
      s.RegionsReleased ((s.exitText s.currentPcb).releaseMemorySegment
        ((s.exitText s.currentPcb).pdata (s.exitText s.currentPcb).exitPcb)))

/-- The bytes `b` are in no region record. -/
def OutsideRegions (s : Kernel) (b : Span) : Prop := ∀ r ∈ s.regions, b.Apart (regionSpan r)

instance (s : Kernel) (b : Span) : Decidable (s.OutsideRegions b) := List.decidableBAll _ _

/-- The stores of exit hit no other process, and the parent id that it writes no region record. -/
structure ExitApart (s : Kernel) : Prop extends s.ExitStraight where
  orphan_regions : s.OutsideRegions (part s.exitPcb pcbPpid 1)

/-! ## What is left when the search ends -/

/-- **When the search ends**, the process is a zombie with its exit code, and the others are as they
were. -/
structure ExitLeft (s v : Kernel) : Prop where
  pcbs : v.pcbs = s.pcbs
  others : ∀ p ∈ s.pcbs, p ≠ s.currentPcb → ∀ i < pcbSize, byte v.mem p i = byte s.mem p i
  zombie : v.status s.currentPcb = stateZombie
  code : byte v.mem s.currentPcb pcbExitCode = s.exitCode
  reason : byte v.mem s.currentPcb pcbWaitReason = byte s.mem s.currentPcb pcbWaitReason

section Left

variable (junk)

/-- The bytes that exit writes after its marks. -/
def exitSpans (s : Kernel) : List Span :=
  [part (s.ptext s.currentPcb) memoryRegionRefCount 4,
    part ((s.exitText s.currentPcb).pdata (s.exitText s.currentPcb).exitPcb) memoryRegionRefCount 4,
    part s.exitPcb pcbPpid 1]

theorem exitRelease_alters_mark (s : Kernel) :
    Alters s.exitSpans (s.exitMark s.currentPcb).mem (s.exitRelease s.currentPcb junk).1.mem := by
  refine ((releaseMemorySegment_alters _ _).mono ?_).trans ((releaseMemorySegment_alters _ _).mono ?_)
  · rw [exitMark_ptext]
    exact fun b hb => .of_mem (by rw [exitSpans]; grind)
  · exact fun b hb => .of_mem (by rw [exitSpans]; grind)

variable (h : s.RingInv) (hcur : s.currentPcb ≠ null) (hstraight : s.ExitStraight)

include h hcur hstraight

/-- Of the PCBs they are apart, but for the parent id of the process. -/
theorem exitSpans_apart (hp : p ∈ s.pcbs) {i n : Nat} (hi : i + n ≤ pcbSize)
    (hppid : p = s.currentPcb → i + n ≤ pcbPpid ∨ pcbPpid + 1 ≤ i) :
    ∀ b ∈ s.exitSpans, b.Apart (part p i n) := by
  simp only [exitSpans, List.forall_mem_cons]
  refine ⟨(h.placed.outside_count hstraight.text).spares hi p hp,
    (h.placed.outside_count hstraight.data).spares hi p hp, ?_, by simp⟩
  rcases hstraight.orphan with horphan | horphan
  · rw [horphan]
    by_cases hpc : p = s.currentPcb
    · rw [hpc]
      exact part_apart (hppid hpc).symm (by decide) (hi.trans (by decide))
    · exact (h.placed.apart (h.ring.current_mem hcur) hp (Ne.symm hpc)).part (by decide) hi
  · exact horphan.spares hi p hp

theorem exitLeft_of_alters (hpcbs : v.pcbs = s.pcbs)
    (halter : Alters s.exitSpans (s.exitMark s.currentPcb).mem v.mem) : s.ExitLeft v := by
  have hmem := h.ring.current_mem hcur
  constructor
  · exact hpcbs
  · intro p hp hne i hi
    rw [halter.byte (exitSpans_apart h hcur hstraight hp hi fun heq => absurd heq hne),
      (exitMark_alters s s.currentPcb).byte]
    have hap := h.placed.apart hmem hp hne.symm
    simp only [List.forall_mem_cons]
    exact ⟨hap.part (by decide) hi, hap.part (by decide) hi, by simp⟩
  · rw [status, halter.byte (exitSpans_apart h hcur hstraight hmem (by decide) fun _ => by decide)]
    exact byte_setByte _ _ _ _
  · rw [halter.byte (exitSpans_apart h hcur hstraight hmem (by decide) fun _ => by decide)]
    simp (disch := decide) only [exitMark, exitCode, byte_setByte_ne, byte_setByte]
  · rw [halter.byte (exitSpans_apart h hcur hstraight hmem (by decide) fun _ => by decide)]
    simp (disch := decide) only [exitMark, byte_setByte_ne]

/-- Whether the process has been given to process 1 or not. -/
theorem exitLeft (hv : v = (s.exitRelease s.currentPcb junk).1 ∨ v = (s.exitRelease s.currentPcb junk).1.adopt) :
    s.ExitLeft v := by
  have hpcbs : (s.exitRelease s.currentPcb junk).1.pcbs = s.pcbs := (exitRelease_books s _ junk).pcbs
  have halter := exitRelease_alters_mark junk s
  rcases hv with rfl | rfl
  · exact exitLeft_of_alters h hcur hstraight hpcbs halter
  · refine exitLeft_of_alters h hcur hstraight hpcbs (halter.trans ((adopt_alters _).mono ?_))
    rw [exitRelease_exitPcb junk h hcur hstraight]
    exact List.forall_mem_singleton.2 (.of_mem (by rw [exitSpans]; grind))

end Left

/-! ## What the search ends with -/

theorem exitAnswer_waiting (hq : s.Waiting q) : s.exitAnswer q = s.reapChild q q := if_pos hq

theorem exitAnswer_quiet (hq : ¬ s.Waiting q) : s.exitAnswer q = s := if_neg hq

namespace ExitLeft

/-- The process itself is marked like one that is blocked. -/
theorem waiting_self (h : s.ExitLeft v) :
    v.Waiting s.currentPcb ↔ byte s.mem s.currentPcb pcbWaitReason = waitingForChild := by
  rw [Waiting, h.zombie, h.reason]
  exact and_iff_right rfl

theorem waiting_other (h : s.ExitLeft v) (hp : p ∈ s.pcbs) (hne : p ≠ s.currentPcb) :
    v.Waiting p ↔ s.Waiting p := by
  rw [Waiting, Waiting, status, status, h.others p hp hne _ (by decide), h.others p hp hne _ (by decide)]

/-- The PCB is given back if and only if the process is what has been found, and is marked as one that
waits. -/
theorem freed_iff (h : s.ExitLeft v) (hpl : s.Placed) (hmem : s.currentPcb ∈ s.pcbs) :
    (v.exitAnswer q).pcbs = s.pcbs.erase s.currentPcb ↔
      q = s.currentPcb ∧ byte s.mem s.currentPcb pcbWaitReason = waitingForChild := by
  constructor
  · intro hfreed
    have hgone : s.currentPcb ∉ (v.exitAnswer q).pcbs := by
      rw [hfreed]
      exact hpl.nodup.not_mem_erase
    by_cases hq : v.Waiting q
    · rw [exitAnswer_waiting hq, reapChild, freePcb, h.pcbs] at hgone
      have heq : q = s.currentPcb := by
        by_contra hne
        exact hgone ((List.mem_erase_of_ne (Ne.symm hne)).2 hmem)
      exact ⟨heq, h.waiting_self.1 (heq ▸ hq)⟩
    · rw [exitAnswer_quiet hq, h.pcbs] at hgone
      exact absurd hmem hgone
  · rintro ⟨rfl, hreason⟩
    rw [exitAnswer_waiting (h.waiting_self.2 hreason), reapChild, freePcb, h.pcbs]

/-- What the answer writes is the `a0` of a process that waits. -/
theorem answer_alters (v : Kernel) (q : Ptr) : Alters [part q tfA0 4] v.mem (v.exitAnswer q).mem := by
  by_cases hq : v.Waiting q
  · rw [exitAnswer_waiting hq]
    exact alters_setWord _ _ _ _
  · rw [exitAnswer_quiet hq]
    exact Alters.refl _ _

end ExitLeft

/-- Only the regions matter. -/
theorem RegionsReleased.congr (h : s.RegionsReleased t) (hregions : u.regions = t.regions)
    (hreleased : u.released = t.released)
    (hrecords : ∀ r ∈ t.regions, ∀ i < memoryRegionStructSize, byte u.mem r i = byte t.mem r i) :
    s.RegionsReleased u where
  regions := hregions.trans h.regions
  records r hr i hi := (hrecords r (hregions ▸ hr) i hi).trans (h.records r (hregions ▸ hr) i hi)
  released := hreleased.trans h.released

namespace ExitLeft

theorem answer_regions (v : Kernel) (q : Ptr) :
    (v.exitAnswer q).regions = v.regions ∧ (v.exitAnswer q).released = v.released := by
  by_cases hq : v.Waiting q
  · rw [exitAnswer_waiting hq]
    exact ⟨rfl, rfl⟩
  · rw [exitAnswer_quiet hq]
    exact ⟨rfl, rfl⟩

/-- **The parent waits.** -/
theorem handedOver_iff (h : s.ExitLeft v) (hpl : s.Placed) (hmem : s.currentPcb ∈ s.pcbs) (hp : s.ParentOf p)
    (hregions : s.RegionsReleased (v.exitAnswer s.currentPcb) ↔ s.RegionsReleased t) :
    s.HandedOver (v.exitAnswer q) p ↔
      (q = s.currentPcb ∧ byte s.mem s.currentPcb pcbWaitReason = waitingForChild) ∧
        word s.mem p tfA0 = s.exitCode.setWidth 32 ∧ s.RegionsReleased t := by
  -- its own `a0` is not written
  have hcode : word (v.exitAnswer s.currentPcb).mem p tfA0 = word s.mem p tfA0 := by
    rw [(answer_alters v s.currentPcb).word]
    · exact word_congr fun k hk => h.others p hp.mem hp.ne _ (by rw [tfA0, pcbSize]; omega)
    · exact List.forall_mem_singleton.2 ((hpl.apart hmem hp.mem hp.ne.symm).part (by decide) (by decide))
  constructor
  · intro hover
    obtain ⟨rfl, hreason⟩ := (h.freed_iff hpl hmem).1 hover.freed
    exact ⟨⟨rfl, hreason⟩, hcode ▸ hover.code, hregions.1 hover.regions⟩
  · rintro ⟨hself, hcode', hreleased⟩
    have hfreed := (h.freed_iff hpl hmem).2 hself
    obtain ⟨rfl, -⟩ := hself
    exact ⟨hregions.2 hreleased, hcode.trans hcode', hfreed⟩

/-- **The parent does not wait.** -/
theorem leftZombie_iff (h : s.ExitLeft v) (hpl : s.Placed) (hmem : s.currentPcb ∈ s.pcbs) (hp : s.ParentOf p)
    (hq : q ∈ s.pcbs) (hwait : ¬ s.Waiting p) : s.LeftZombie (v.exitAnswer q) p ↔
      ¬ (q = s.currentPcb ∧ byte s.mem s.currentPcb pcbWaitReason = waitingForChild) := by
  constructor
  · intro hleft hself
    have hkept := hleft.kept
    rw [(h.freed_iff hpl hmem).2 hself] at hkept
    exact hpl.nodup.not_mem_erase hkept
  · intro hother
    -- what is given back, if anything, is neither
    have hkept : ∀ x ∈ s.pcbs, (v.Waiting q → x ≠ q) → x ∈ (v.exitAnswer q).pcbs := by
      intro x hx hne
      by_cases hvq : v.Waiting q
      · rw [exitAnswer_waiting hvq, reapChild, freePcb, h.pcbs]
        exact (List.mem_erase_of_ne (hne hvq)).2 hx
      · rw [exitAnswer_quiet hvq, h.pcbs]
        exact hx
    have hchild : v.Waiting q → s.currentPcb ≠ q := by
      rintro hvq rfl
      exact hother ⟨rfl, h.waiting_self.1 hvq⟩
    have hparent : v.Waiting q → p ≠ q := by
      rintro hvq rfl
      exact hwait ((h.waiting_other hp.mem hp.ne).1 hvq)
    -- and neither is written to
    have hbyte : ∀ x ∈ s.pcbs, (v.Waiting q → x ≠ q) → ∀ i < pcbSize,
        byte (v.exitAnswer q).mem x i = byte v.mem x i := by
      intro x hx hne i hi
      by_cases hvq : v.Waiting q
      · refine (answer_alters v q).byte (List.forall_mem_singleton.2 ?_)
        exact (hpl.apart hq hx (hne hvq).symm).part (by decide) hi
      · rw [exitAnswer_quiet hvq]
    refine ⟨hkept _ hmem hchild, ?_, ?_, hkept p hp.mem hparent, fun i hi => ?_⟩
    · exact (hbyte _ hmem hchild _ (by decide)).trans h.zombie
    · exact (hbyte _ hmem hchild _ (by decide)).trans h.code
    · exact (hbyte p hp.mem hparent i hi).trans (h.others p hp.mem hp.ne i hi)

end ExitLeft

/-! ## Exit as a whole -/

section Exit

variable (h : s.RingInv) (hcur : s.currentPcb ≠ null) (hapart : s.ExitApart)

include h hcur hapart

/-- Neither the adoption nor the answer touches a region record. -/
theorem answer_released (hv : v = (s.exitRelease s.currentPcb junk).1 ∨
    v = (s.exitRelease s.currentPcb junk).1.adopt) :
    s.RegionsReleased (v.exitAnswer s.currentPcb) ↔ s.RegionsReleased (s.exitRelease s.currentPcb junk).1 := by
  have hmem := h.ring.current_mem hcur
  have hsub := (exitRelease_regions s s.currentPcb junk).subset
  have hra := exitRelease_exitPcb junk h hcur hapart.toExitStraight
  have hbooks := ExitLeft.answer_regions v s.currentPcb
  have hsame : (v.exitAnswer s.currentPcb).regions = (s.exitRelease s.currentPcb junk).1.regions ∧
      (v.exitAnswer s.currentPcb).released = (s.exitRelease s.currentPcb junk).1.released := by
    rw [hbooks.1, hbooks.2]
    rcases hv with rfl | rfl <;> exact ⟨rfl, rfl⟩
  have halter : Alters [part s.exitPcb pcbPpid 1, part s.currentPcb tfA0 4]
      (s.exitRelease s.currentPcb junk).1.mem (v.exitAnswer s.currentPcb).mem := by
    have hanswer := (ExitLeft.answer_alters v s.currentPcb).mono (T := [part s.exitPcb pcbPpid 1,
      part s.currentPcb tfA0 4]) (List.forall_mem_singleton.2 (.of_mem (by simp)))
    rcases hv with rfl | rfl
    · exact hanswer
    · refine ((adopt_alters _).mono (List.forall_mem_singleton.2 ?_)).trans hanswer
      rw [hra]
      exact .of_mem List.mem_cons_self
  have hrecords : ∀ r ∈ s.regions, ∀ i < memoryRegionStructSize,
      byte (v.exitAnswer s.currentPcb).mem r i = byte (s.exitRelease s.currentPcb junk).1.mem r i := by
    intro r hr i hi
    refine halter.byte ?_
    simp only [List.forall_mem_cons]
    refine ⟨fun x hx hx' => hapart.orphan_regions r hr x hx (has_of_part hx' hi),
      (h.placed.cross _ hmem r hr).part (by decide) hi, by simp⟩
  constructor
  · intro hreleased
    refine hreleased.congr hsame.1.symm hsame.2.symm fun r hr i hi => (hrecords r (hsub ?_) i hi).symm
    exact hsame.1 ▸ hr
  · exact fun hreleased => hreleased.congr hsame.1 hsame.2 fun r hr i hi => hrecords r (hsub hr) i hi

end Exit

end Kernel

open Kernel

/-- **Exit hands the right code to the right parent** if and only if the parent does not wait and the
process finds another than itself, or there was nothing to hand over. -/
theorem exit_parent_iff (s : Kernel) (h : s.RingInv) (hcur : s.currentPcb ≠ null) (hapart : s.ExitApart)
    (p : Ptr) (hp : s.ParentOf p) (junk : Word) : s.ExitRight junk p ↔ s.ExitMeets junk p := by
  have hmem := h.ring.current_mem hcur
  rcases exit_search junk h hcur hapart.toExitStraight with ⟨q, v, hfinds, hsought, hv, hexit⟩ | ⟨hfinds, -, hexit⟩
  · have hleft := exitLeft junk h hcur hapart.toExitStraight hv
    have hne : q ≠ null := fun hnull => h.placed.null_notMem (hnull ▸ hsought.1)
    have hexit : s.ecallExit s.currentPcb junk = some (v.exitAnswer q) := by
      have henough := hexit (2 ^ 32 - 2)
      rw [Nat.sub_add_cancel (by norm_num)] at henough
      rw [ecallExit, henough]
    have hself : s.FindsItself junk ↔
        q = s.currentPcb ∧ byte s.mem s.currentPcb pcbWaitReason = waitingForChild := by
      rw [FindsItself, hfinds, Option.some.injEq]
    have hover := hleft.handedOver_iff (q := q) h.placed hmem hp (answer_released h hcur hapart hv)
    rw [ExitRight, ExitMeets, hself, hfinds]
    constructor
    · rintro ⟨t, ht, hwaiting, hquiet⟩
      obtain rfl := Option.some.inj (hexit.symm.trans ht)
      refine ⟨fun hwait => ⟨fun heq => hne (Option.some.inj heq), ?_⟩, fun hwait => hover.1 (hwaiting hwait)⟩
      exact (hleft.leftZombie_iff h.placed hmem hp hsought.1 hwait).1 (hquiet hwait)
    · rintro ⟨hquiet, hwaiting⟩
      refine ⟨_, hexit, fun hwait => hover.2 (hwaiting hwait), fun hwait => ?_⟩
      exact (hleft.leftZombie_iff h.placed hmem hp hsought.1 hwait).2 (hquiet hwait).2
  · -- it does not come back
    have hlost : s.ecallExit s.currentPcb junk = none := by rw [ecallExit, hexit]
    rw [ExitRight, ExitMeets, FindsItself, hfinds, hlost]
    constructor
    · rintro ⟨t, ht, -⟩
      cases ht
    · rintro ⟨hquiet, hwaiting⟩
      by_cases hwait : s.Waiting p
      · exact absurd (Option.some.inj (hwaiting hwait).1.1) hcur.symm
      · exact absurd rfl (hquiet hwait).1

/-! ### The child of the program that forks exits -/

/-- The child has been scheduled. -/
def childRunning : Kernel := ({ forkDone 164 with released := [] }.schedule 0x500).get (by decide +kernel)

theorem childRunning_ring : childRunning.RingInv := by
  have hcopy : forkRunning.RingSafe (.fork (forkGrants 164)) :=
    ⟨by decide +kernel, fun _ => ⟨by decide, by decide⟩⟩
  have hforked : Reach 0x500 Booted RingSafe (forkDone 164) := forkRunning_ring.step hcopy (forkDone_step 164)
  have hturn : (forkDone 164).Step 0x500 .schedule childRunning := .schedule (Option.some_get _).symm
  exact hturn.ring trivial hforked.ringInv

/-- Its parent does not wait, and it finds that. -/
theorem exit_parent_quiet : childRunning.ExitRight 0 0x1000 := by
  refine (exit_parent_iff childRunning childRunning_ring (by decide +kernel)
    ⟨⟨by decide +kernel, by decide +kernel, by decide +kernel⟩, by decide +kernel⟩ 0x1000
    ⟨by decide +kernel, by decide +kernel, by decide +kernel⟩ 0).2 ⟨fun _ => ⟨?_, ?_⟩, fun hwait => ?_⟩
  · decide +kernel
  · exact fun hself => absurd hself.1 (by decide +kernel)
  · exact absurd hwait (by decide +kernel)

/-- The parent is blocked until a child exits. -/
def parentWaiting : Kernel :=
  { childRunning with
    mem := setByte (setByte childRunning.mem 0x1000 pcbStatus stateBlocked) 0x1000 pcbWaitReason waitingForChild }

theorem parentWaiting_ring : parentWaiting.RingInv := by
  have hmem : (0x1000 : Ptr) ∈ childRunning.pcbs := by decide +kernel
  have hsame : childRunning.Same parentWaiting := by
    refine Same.of_alters (S := [part 0x1000 pcbStatus 1, part 0x1000 pcbWaitReason 1]) ?_ ?_
    · exact ((Alters.refl _ _).setByte (.of_mem List.mem_cons_self)).setByte
        (.of_mem (List.mem_cons_of_mem _ List.mem_cons_self))
    · simp only [List.forall_mem_cons]
      have hplaced := childRunning_ring.placed
      exact ⟨hplaced.sparesTable hmem (Or.inr (Or.inr (Or.inr (by decide)))),
        hplaced.sparesTable hmem (Or.inr (Or.inr (Or.inr (by decide)))), by simp⟩
  exact ⟨childRunning_ring.placed.congr rfl rfl, childRunning_ring.loads, childRunning_ring.requests,
    childRunning_ring.ring.congr rfl rfl hsame.next⟩

/-- It is reaped in place of its child. -/
theorem exit_reaps_parent : ¬ ∀ (s : Kernel) (p : Ptr) (junk : Word), s.RingInv → s.currentPcb ≠ null →
    s.ParentOf p → s.ExitRight junk p := by
  intro h
  obtain ⟨t, ht, hwaiting, -⟩ := h parentWaiting 0x1000 0 parentWaiting_ring (by decide +kernel)
    ⟨by decide +kernel, by decide +kernel, by decide +kernel⟩
  have hover := hwaiting (by decide +kernel)
  have hfreed : (parentWaiting.ecallExit parentWaiting.currentPcb 0).map pcbs = some [0x1100] := by
    decide +kernel
  have hright : t.pcbs = [0x1000] := hover.freed.trans (by decide +kernel)
  rw [ht, Option.map_some, hright] at hfreed
  exact absurd hfreed (by decide)

end RiscyOS
