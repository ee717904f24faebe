import RiscyOS.Process.TableCounts
import RiscyOS.Process.TablePids

/-!
# Whether exit comes back

`ecall_exit` looks for the parent, and if there is none gives the process to process 1 and looks again.
There is no process 1: the first one has the id 2, and 1 comes up again only when the byte has gone round.
So an orphan looks for ever.  And which id it looks for first is not that of the parent, but what is found
165 bytes behind whatever the release of the data region has left in `t0`.

* `Kernel.Sought` — what the search is for: a process with the id that is read, and if there is none one
  with the id 1.
* `Kernel.ExitStraight` — the stores of exit through pointers hit no other process.
* `exit_returns_iff` — then exit comes back if and only if there is something to be found.
-/

set_option autoImplicit false

namespace RiscyOS

open Memory

namespace Kernel

variable {s t : Kernel} {p q t0 : Ptr} {idle junk : Word}

/-- What the running process, exiting, takes for the id of its parent. -/
def exitId (s : Kernel) (junk : Word) : Byte :=
  byte (s.exitRelease s.currentPcb junk).1.mem (s.exitRelease s.currentPcb junk).2 pcbPpid

/-- **What the search is for.** -/
def Sought (s : Kernel) (junk : Word) (q : Ptr) : Prop :=
  q ∈ s.pcbs ∧ (s.pid q = s.exitId junk ∨ s.pid q = 1 ∧ ∀ p ∈ s.pcbs, s.pid p ≠ s.exitId junk)

/-- What it finds: null if there is neither. -/
def exitFinds (s : Kernel) (junk : Word) : Option Ptr := do
  let a0 ← s.getPcbFromId (s.exitId junk)
  if a0 = null then s.getPcbFromId 1 else some a0

/-- The counts that exit writes are in no PCB, and the parent id that it writes is the process's own or in
no PCB. -/
structure ExitStraight (s : Kernel) : Prop where
  text : s.RegionOutside (s.ptext s.currentPcb)
  data : s.RegionOutside ((s.exitText s.currentPcb).pdata (s.exitText s.currentPcb).exitPcb)
  orphan : s.exitPcb = s.currentPcb ∨ s.Outside (part s.exitPcb pcbPpid 1)

/-- `ecall_exit` comes back. -/
def ExitReturns (s : Kernel) (junk : Word) : Prop :=
  ∃ fuel t, exitParent fuel (s.exitRelease s.currentPcb junk).1 (s.exitRelease s.currentPcb junk).2 = some t

/-- What becomes of the process that the search ends with. -/
def exitAnswer (s : Kernel) (q : Ptr) : Kernel :=
  if byte s.mem q pcbStatus = stateBlocked ∧ byte s.mem q pcbWaitReason = waitingForChild then s.reapChild q q
  else s

/-- The orphan is given to process 1. -/
def adopt (s : Kernel) : Kernel := { s with mem := setByte s.mem s.exitPcb pcbPpid 1 }

/-! ## One search -/

theorem exitParent_some (hq : s.getPcbFromId (byte s.mem t0 pcbPpid) = some q) (hne : q ≠ null) (fuel : Nat) :
    exitParent (fuel + 1) s t0 = some (s.exitAnswer q) := by
  rw [exitParent, hq, Option.bind_eq_bind, Option.bind_some, if_neg hne, exitAnswer]
  split <;> rfl

theorem exitParent_null (hq : s.getPcbFromId (byte s.mem t0 pcbPpid) = some null) (fuel : Nat) :
    exitParent (fuel + 1) s t0 = exitParent fuel s.adopt s.exitPcb := by
  rw [exitParent, hq, Option.bind_eq_bind, Option.bind_some, if_pos rfl]
  rfl

theorem exitFinds_some (hq : s.getPcbFromId (s.exitId junk) = some q) (hne : q ≠ null) :
    s.exitFinds junk = some q := by
  rw [exitFinds, hq, Option.bind_eq_bind, Option.bind_some, if_neg hne]

theorem exitFinds_null (hq : s.getPcbFromId (s.exitId junk) = some null) :
    s.exitFinds junk = s.getPcbFromId 1 := by
  rw [exitFinds, hq, Option.bind_eq_bind, Option.bind_some, if_pos rfl]

/-! ## Adoption -/

section Adopt

theorem adopt_alters (s : Kernel) : Alters [part s.exitPcb pcbPpid 1] s.mem s.adopt.mem := alters_setByte _ _ _ _

/-- The table stays as it is. -/
theorem adopt_same (hpl : s.Placed) (hcur : s.currentPcb ∈ s.pcbs)
    (horphan : s.exitPcb = s.currentPcb ∨ s.Outside (part s.exitPcb pcbPpid 1)) : s.Same s.adopt := by
  refine Same.of_alters (adopt_alters s) (List.forall_mem_singleton.2 ?_)
  rcases horphan with h | h
  · rw [h]
    exact hpl.sparesTable hcur (Or.inr (Or.inr (Or.inr (by decide))))
  · exact h.sparesTable

/-- And so does what is taken for the PCB. -/
theorem adopt_exitPcb (hcur : s.currentPcb ∈ s.pcbs)
    (horphan : s.exitPcb = s.currentPcb ∨ s.Outside (part s.exitPcb pcbPpid 1)) : s.adopt.exitPcb = s.exitPcb := by
  refine (adopt_alters s).word (List.forall_mem_singleton.2 ?_)
  rcases horphan with h | h
  · rw [h]
    exact part_apart (by decide) (by decide) (by decide)
  · exact h.spares (by decide) _ hcur

/-- A second time it changes nothing. -/
theorem adopt_adopt (h : s.adopt.exitPcb = s.exitPcb) : s.adopt.adopt = s.adopt := by
  have hmem : setByte s.adopt.mem s.exitPcb pcbPpid 1 = s.adopt.mem := by
    funext x
    by_cases hx : x = s.exitPcb + BitVec.ofNat 32 pcbPpid
    · simp [adopt, setByte, store8, hx]
    · simp [setByte, store8, hx]
  rw [adopt, h, hmem]

end Adopt

/-! ## The search -/

section Exit

variable (junk) (h : s.RingInv) (hcur : s.currentPcb ≠ null) (hstraight : s.ExitStraight)

include h hcur hstraight

/-- What is left when both regions have been released. -/
theorem exitRelease_ring : (s.exitRelease s.currentPcb junk).1.RingInv ∧
    s.Same (s.exitRelease s.currentPcb junk).1 := by
  have hbooks := exitRelease_books s s.currentPcb junk
  have hsame : s.Same (s.exitRelease s.currentPcb junk).1 :=
    exitRelease_same h.placed (h.ring.current_mem hcur) hstraight.text hstraight.data
  refine ⟨h.kept (h.placed.sublist ?_ (exitRelease_regions _ _ _)) (hsame.kept hbooks.pcbs) hbooks.currentPcb
    (List.Perm.of_eq hbooks.loads).subset (List.Perm.of_eq hbooks.requests).subset, hsame⟩
  rw [hbooks.pcbs]

/-- The saved `ra` is still there. -/
theorem exitRelease_exitPcb : (s.exitRelease s.currentPcb junk).1.exitPcb = s.exitPcb := by
  have hmem := h.ring.current_mem hcur
  rw [exitPcb, (exitRelease_books s s.currentPcb junk).currentPcb]
  refine (exitRelease_alters s s.currentPcb junk).word ?_
  simp only [List.forall_mem_cons]
  exact ⟨part_apart (by decide) (by decide) (by decide), part_apart (by decide) (by decide) (by decide),
    (h.placed.outside_count hstraight.text).spares (by decide) _ hmem,
    (h.placed.outside_count hstraight.data).spares (by decide) _ hmem, by simp⟩

/-- **The search for a parent** comes to an end if there is something to be found, at the latest when it is
process 1 that is looked for, and otherwise not at all. -/
theorem exit_search :
    (∃ q v, s.exitFinds junk = some q ∧ s.Sought junk q ∧
      (v = (s.exitRelease s.currentPcb junk).1 ∨ v = (s.exitRelease s.currentPcb junk).1.adopt) ∧
      ∀ fuel, exitParent (fuel + 2) (s.exitRelease s.currentPcb junk).1 (s.exitRelease s.currentPcb junk).2 =
        some (v.exitAnswer q)) ∨
    s.exitFinds junk = some null ∧ (∀ q, ¬ s.Sought junk q) ∧ ∀ fuel,
      exitParent fuel (s.exitRelease s.currentPcb junk).1 (s.exitRelease s.currentPcb junk).2 = none := by
  obtain ⟨hring, hsame⟩ := exitRelease_ring junk h hcur hstraight
  have hra := exitRelease_exitPcb junk h hcur hstraight
  have hbooks := exitRelease_books s s.currentPcb junk
  have hid : byte (s.exitRelease s.currentPcb junk).1.mem (s.exitRelease s.currentPcb junk).2 pcbPpid =
    s.exitId junk := rfl
  generalize hu : (s.exitRelease s.currentPcb junk).1 = u at *
  generalize (s.exitRelease s.currentPcb junk).2 = t0 at *
  have hpcbs : u.pcbs = s.pcbs := hbooks.pcbs
  have hucur : u.currentPcb = s.currentPcb := hbooks.currentPcb
  have hne : ∀ q ∈ s.pcbs, q ≠ null := fun q hq hnull => h.placed.null_notMem (hnull ▸ hq)
  have hfirst : u.getPcbFromId (s.exitId junk) = s.getPcbFromId (s.exitId junk) :=
    h.ring.search_congr hucur hsame _
  rcases h.ring.search_cases hcur (s.exitId junk) with ⟨q, hq, hpid, hfound⟩ | ⟨hnone, hnull⟩
  · refine Or.inl ⟨q, u, exitFinds_some hfound (hne q hq), ⟨hq, Or.inl hpid⟩, Or.inl rfl, fun fuel => ?_⟩
    exact exitParent_some (hid ▸ hfirst.trans hfound) (hne q hq) _
  · -- the orphan, and the search for process 1
    have horphan : u.exitPcb = u.currentPcb ∨ u.Outside (part u.exitPcb pcbPpid 1) := by
      rw [hra, hucur, Outside, hpcbs]
      exact hstraight.orphan
    have hmem : u.currentPcb ∈ u.pcbs := hring.ring.current_mem (hucur ▸ hcur)
    have hadopted := adopt_same hring.placed hmem horphan
    have hstays := adopt_exitPcb hmem horphan
    have hone : byte u.adopt.mem u.exitPcb pcbPpid = 1 := byte_setByte _ _ _ _
    have hsecond : u.adopt.getPcbFromId 1 = s.getPcbFromId 1 :=
      h.ring.search_congr (t := u.adopt) hucur (hsame.trans hadopted (List.Perm.of_eq hpcbs.symm).subset) 1
    rcases h.ring.search_cases hcur 1 with ⟨q, hq, hpid, hfound⟩ | ⟨hnotOne, hlost⟩
    · refine Or.inl ⟨q, u.adopt, (exitFinds_null hnull).trans hfound, ⟨hq, Or.inr ⟨hpid, hnone⟩⟩, Or.inr rfl,
        fun fuel => ?_⟩
      rw [exitParent_null (hid ▸ hfirst.trans hnull)]
      exact exitParent_some (hone ▸ hsecond.trans hfound) (hne q hq) _
    · refine Or.inr ⟨(exitFinds_null hnull).trans hlost, fun q hq => ?_, fun fuel => ?_⟩
      · rcases hq.2 with hq' | ⟨hq', -⟩
        · exact hnone q hq.1 hq'
        · exact hnotOne q hq.1 hq'
      · -- once more, and nothing has changed
        have hloop : ∀ fuel, exitParent fuel u.adopt u.exitPcb = none := by
          intro fuel
          induction fuel with
          | zero => rfl
          | succ fuel ih => rw [exitParent_null (hone ▸ hsecond.trans hlost), adopt_adopt hstays, hstays, ih]
        cases fuel with
        | zero => rfl
        | succ fuel => rw [exitParent_null (hid ▸ hfirst.trans hnull), hloop]

/-- Exit comes back if and only if there is something to be found. -/
theorem exitReturns_sought : s.ExitReturns junk ↔ ∃ q, s.Sought junk q := by
  rcases exit_search junk h hcur hstraight with ⟨q, v, -, hq, -, hfound⟩ | ⟨-, hnone, hlost⟩
  · exact ⟨fun _ => ⟨q, hq⟩, fun _ => ⟨2, _, hfound 0⟩⟩
  · refine ⟨?_, fun ⟨q, hq⟩ => absurd hq (hnone q)⟩
    rintro ⟨fuel, t, ht⟩
    rw [hlost] at ht
    cases ht

end Exit

end Kernel

open Kernel

/-- **Exit comes back** if and only if a process has the id that is read as that of the parent, or the
id 1. -/
theorem exit_returns_iff (idle : Word) (s : Kernel) (h : Reach idle Booted RingSafe s) (hrun : s.kidle = 0)
    (hcur : s.currentPcb ≠ null) (junk : Word) (hstraight : s.ecall.ExitStraight) :
    s.ecall.ExitReturns junk ↔ ∃ q, s.ecall.Sought junk q :=
  exitReturns_sought junk h.ringInv.ecall hcur hstraight

/-! ### The first process exits -/

/-- Where its `ra` points to there is its own id, and it finds itself. -/
theorem exit_finds_itself : forkRunning.ecall.ExitReturns 0 :=
  (exit_returns_iff 0x500 forkRunning forkRunning_ring (by decide +kernel) (by decide +kernel) 0
    ⟨by decide +kernel, by decide +kernel, by decide +kernel⟩).2
    ⟨0x1000, by decide +kernel, Or.inl (by decide +kernel)⟩

/-- The program has called a function, and `ra` points elsewhere. -/
def callRunning : Kernel :=
  { forkRunning with released := [], mem := setWord forkRunning.mem 0x1000 tfRa 0x200, csr := ⟨0, 0, 0⟩ }

/-- There is no id there. -/
theorem exit_never_returns : ¬ ∀ s junk, Reach 0x500 Booted (fun _ _ => True) s → s.kidle = 0 →
    s.currentPcb ≠ null → s.ecall.ExitReturns junk := by
  intro h
  have hothers : forkRunning.Others (setWord forkRunning.mem 0x1000 tfRa 0x200) :=
    forkRunning_ring.ringInv.placed.others (by decide +kernel) 0x200
  have hstep : forkRunning.Step 0x500 (.others _ ⟨0, 0, 0⟩) callRunning := .others _ _ hothers
  have hrun : Reach 0x500 Booted (fun _ _ => True) callRunning :=
    (forkRunning_reach (forkStarted_reach trivial trivial) trivial trivial).step trivial hstep
  have hring : callRunning.RingInv := hstep.ring trivial forkRunning_ring.ringInv
  have hreturns := h callRunning 0 hrun (by decide +kernel) (by decide +kernel)
  have hstraight : callRunning.ecall.ExitStraight := ⟨by decide +kernel, by decide +kernel, by decide +kernel⟩
  obtain ⟨q, hq, hid⟩ := (exitReturns_sought 0 hring.ecall (by decide +kernel) hstraight).1 hreturns
  have hpcbs : callRunning.ecall.pcbs = [0x1000] := by decide +kernel
  rw [hpcbs] at hq
  obtain rfl := List.mem_singleton.1 hq
  rcases hid with hid | ⟨hid, -⟩
  · exact absurd hid (by decide +kernel)
  · exact absurd hid (by decide +kernel)

end RiscyOS
