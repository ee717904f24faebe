import RiscyOS.Arch.ContextSwitch
import RiscyOS.Lib.Ring

/-!
# Taking turns

The processes are a ring through `PCB_NEXT`, and `schedule_next` in `kernel/scheduler.s` goes round
it once, from the process after `current_pcb` to `current_pcb` itself.  Its one loop tests three
things on the same pointer: a process that is ready ends it, so does coming back to the start, and
there a process that is running may go on.

`scheduleNext_eq` says what the loop computes, for a ring of any length and any statuses.  Fairness is
a consequence of where the next search starts.  After a decision the ring is read from the process
that was selected, and from there the ready processes are the same list rotated by one
(`Circular.find?_rotate`).  So successive decisions go down that list, whatever the processor does in
between to anything but the ring and the statuses.
-/

set_option autoImplicit false

namespace RiscyOS

/-- The process at `p` is `READY`. -/
def Machine.ready (s : Machine) (p : Ptr) : Bool := decide ((s.pcb p).pstatus = stateReady)

/-- **The process table is a ring**: from `current_pcb`, `PCB_NEXT` leads through the processes `l`,
none of which is null. -/
structure Machine.OnRing (s : Machine) (l : List Ptr) : Prop where
  ring : Circular (fun p => (s.pcb p).next) s.currentPcb l
  ne_null : null ∉ l

section Search

variable {s : Machine} {p t0 : Ptr} {l : List Ptr}

/-- **The loop of `schedule_next`**, with the nodes `l` still to be visited. -/
theorem scheduleNextLoop_eq (hchain : List.IsChain (fun x y => (s.pcb x).next = y) (t0 :: l))
    (hlast : l.getLast? = some p) (hnodup : l.Nodup) {fuel : Nat} (hfuel : l.length ≤ fuel) :
    scheduleNextLoop s p fuel t0 = some ((l.find? s.ready).getD
      (if (s.pcb p).pstatus = stateRunning then p else null)) := by
  induction l generalizing t0 fuel with
  | nil => exact absurd hlast (by simp)
  | cons x l ih =>
    obtain ⟨fuel, rfl⟩ := Nat.exists_eq_succ_of_ne_zero (Nat.ne_of_gt (Nat.zero_lt_of_lt hfuel))
    obtain ⟨hnext, hchain⟩ := List.isChain_cons_cons.1 hchain
    rw [scheduleNextLoop]
    simp only [hnext]
    by_cases hready : (s.pcb x).pstatus = stateReady
    · rw [if_pos hready, List.find?_cons_of_pos (show s.ready x = true from decide_eq_true hready), Option.getD_some]
    · rw [if_neg hready, List.find?_cons_of_neg (by simpa [Machine.ready] using hready)]
      by_cases hx : x = p
      · -- back at the start: there is nothing behind it
        subst hx
        obtain rfl : l = [] := by
          rcases l with _ | ⟨y, l⟩
          · rfl
          · rw [List.getLast?_cons_cons] at hlast
            exact absurd (List.mem_of_getLast? hlast) (List.nodup_cons.1 hnodup).1
        rw [if_neg (not_not.2 rfl)]
        split <;> rfl
      · rw [if_pos hx]
        rcases l with _ | ⟨y, l⟩
        · exact absurd (Option.some.inj hlast) hx
        · rw [List.getLast?_cons_cons] at hlast
          exact ih hchain hlast (List.nodup_cons.1 hnodup).2 (Nat.le_of_succ_le_succ hfuel)

/-- **`schedule_next`** returns the first process that is ready, or else the current one if it is
running, or else null. -/
theorem scheduleNext_eq (h : s.OnRing l) :
    scheduleNext s = some ((l.find? s.ready).getD
      (if (s.pcb s.currentPcb).pstatus = stateRunning then s.currentPcb else null)) := by
  have hcur : s.currentPcb ≠ null := fun hnull => h.ne_null (hnull ▸ h.ring.mem)
  rw [scheduleNext, if_neg hcur]
  exact scheduleNextLoop_eq h.ring.chain h.ring.last h.ring.nodup
    (Memory.length_le_of_nodup h.ring.nodup)

end Search

/-! ## Decisions -/

/-- Neither the ring nor a status changes. -/
structure Undisturbed (s s' : Machine) : Prop where
  current : s'.currentPcb = s.currentPcb
  next : ∀ p, (s'.pcb p).next = (s.pcb p).next
  status : ∀ p, (s'.pcb p).pstatus = (s.pcb p).pstatus

/-- Decisions of `schedule`, one after another, with the processes selected.  In between anything may
happen to the CSRs, the idle flag, the MMU, and the PCBs up to their links and statuses. -/
inductive Decisions (idle : Memory.Word) : Machine → List Ptr → Machine → Prop
  | done (s : Machine) : Decisions idle s [] s
  | step {s t u v : Machine} {ps : List Ptr} (hstep : schedule idle s = some t)
      (hrun : Undisturbed t u) (hrest : Decisions idle u ps v) :
      Decisions idle s (t.currentPcb :: ps) v

section Turns

variable {idle : Memory.Word} {s t u : Machine} {l : List Ptr}

/-- A switch to a process changes no link and no status. -/
theorem contextSwitch_queue (idle : Memory.Word) {a0 : Ptr} (ha : a0 ≠ null) :
    (contextSwitch idle a0 s).currentPcb = a0 ∧
      ∀ p, ((contextSwitch idle a0 s).pcb p).next = (s.pcb p).next ∧
        ((contextSwitch idle a0 s).pcb p).pstatus = (s.pcb p).pstatus := by
  by_cases hk : s.kidle = 0
  · rw [contextSwitch_of_process ha hk]
    refine ⟨rfl, fun p => ?_⟩
    by_cases hp : p = s.currentPcb
    · simp [Machine.storeCsr, Machine.enter, hp]
    · rw [storeCsr_pcb_of_ne hp]
      exact ⟨rfl, rfl⟩
  · rw [contextSwitch_of_idle ha hk]
    exact ⟨rfl, fun p => ⟨rfl, rfl⟩⟩

/-- **One decision.**  The first ready process is selected, and from it the ready processes are the
same list rotated by one. -/
theorem Machine.OnRing.schedule (idle : Memory.Word) (h : s.OnRing l) (hready : l.filter s.ready ≠ []) :
    ∃ q t, RiscyOS.schedule idle s = some t ∧ t.currentPcb = q ∧ (l.filter s.ready).head? = some q ∧
      ∀ u, Undisturbed t u →
        ∃ l', u.OnRing l' ∧ l'.filter u.ready = (l.filter s.ready).rotate 1 := by
  obtain ⟨x, hx⟩ := List.exists_mem_of_ne_nil _ hready
  obtain ⟨q, hq⟩ := Option.isSome_iff_exists.1 (List.find?_isSome.2 ⟨x, List.mem_filter.1 hx⟩)
  have hne : q ≠ null := by
    rintro rfl
    exact h.ne_null (List.mem_of_find?_eq_some hq)
  obtain ⟨hcur, hpcb⟩ := contextSwitch_queue (s := s) idle hne
  refine ⟨q, contextSwitch idle q s, ?_, hcur, by rw [List.head?_filter, hq], fun u hu => ?_⟩
  · rw [RiscyOS.schedule, scheduleNext_eq h, hq]
    exact if_pos hne
  · obtain ⟨l', hring, hperm, hfilter⟩ := h.ring.find?_rotate hq
    refine ⟨l', ⟨?_, fun hmem => h.ne_null (hperm.mem_iff.1 hmem)⟩, ?_⟩
    · rw [hu.current, hcur]
      exact hring.congr fun x _ => (hu.next x).trans (hpcb x).1
    · rw [← hfilter]
      refine List.filter_congr fun x _ => ?_
      rw [Machine.ready, Machine.ready, hu.status, (hpcb x).2]

/-- **Decisions go down the list of the ready processes.** -/
theorem Decisions.eq_take {ps : List Ptr} (hd : Decisions idle s ps t) (h : s.OnRing l)
    (hlen : ps.length ≤ (l.filter s.ready).length) : ps = (l.filter s.ready).take ps.length := by
  induction hd generalizing l with
  | done s => rfl
  | @step s t u v ps hstep hrun hrest ih =>
    have hne : l.filter s.ready ≠ [] := by
      rintro hnil
      rw [hnil] at hlen
      exact absurd hlen (Nat.not_succ_le_zero _)
    obtain ⟨q, t', hstep', hcur, hhead, hnext⟩ := h.schedule idle hne
    obtain rfl : t = t' := Option.some.inj (hstep.symm.trans hstep')
    obtain ⟨l', hring, hrot⟩ := hnext u hrun
    obtain ⟨rest, hl⟩ : ∃ rest, l.filter s.ready = q :: rest := by
      rw [List.head?_eq_some_iff] at hhead
      exact hhead
    rw [hl, List.rotate_cons_succ, List.rotate_zero] at hrot
    rw [hl, List.length_cons, List.length_cons] at hlen
    have hle : ps.length ≤ rest.length := Nat.le_of_succ_le_succ hlen
    have hps : ps = (l'.filter u.ready).take ps.length := by
      refine ih hring ?_
      rw [hrot, List.length_append]
      exact hle.trans (Nat.le_add_right _ _)
    rw [hrot, List.take_append_of_le_length hle] at hps
    rw [hl, List.length_cons, List.take_succ_cons, hcur, ← hps]

/-- As long as a process is ready, there is always another decision. -/
theorem Machine.OnRing.exists_decisions (idle : Memory.Word) (n : Nat) (h : s.OnRing l)
    (hready : l.filter s.ready ≠ []) : ∃ ps t, Decisions idle s ps t ∧ ps.length = n := by
  induction n generalizing s l with
  | zero => exact ⟨[], s, .done s, rfl⟩
  | succ n ih =>
    obtain ⟨-, u, hu, -, -, hnext⟩ := h.schedule idle hready
    obtain ⟨l', hring, hrot⟩ := hnext u ⟨rfl, fun _ => rfl, fun _ => rfl⟩
    have hne : l'.filter u.ready ≠ [] := by
      rw [hrot]
      exact mt List.rotate_eq_nil_iff.1 hready
    obtain ⟨ps, t, hrun, hlen⟩ := ih hring hne
    exact ⟨_, t, .step hu ⟨rfl, fun _ => rfl, fun _ => rfl⟩ hrun, by rw [List.length_cons, hlen]⟩

end Turns

/-- **Round robin.**  In a ring of processes `l`, listed from the one after the current process to the
current process itself, `schedule_next` returns the first that is ready, or else the current one if it
is running, or else null.  With `r ≥ 1` processes ready, any `r` successive decisions select each of
them exactly once, and there are as many. -/
theorem schedule_round_robin (idle : Memory.Word) (s : Machine) (l : List Ptr) (h : s.OnRing l) :
    scheduleNext s = some ((l.find? s.ready).getD
      (if (s.pcb s.currentPcb).pstatus = stateRunning then s.currentPcb else null)) ∧
    (1 ≤ (l.filter s.ready).length →
      ∃ ps t, Decisions idle s ps t ∧ ps.length = (l.filter s.ready).length) ∧
    ∀ (ps : List Ptr) (t : Machine), Decisions idle s ps t →
      ps.length = (l.filter s.ready).length →
        ps = l.filter s.ready ∧ ∀ p ∈ l, s.ready p = true → ps.count p = 1 := by
  refine ⟨scheduleNext_eq h, fun hr => h.exists_decisions idle _ (List.ne_nil_of_length_pos hr),
    fun ps t hd hlen => ?_⟩
  have hps := hd.eq_take h hlen.le
  rw [hlen, List.take_length] at hps
  refine ⟨hps, fun p hp hready => ?_⟩
  rw [hps]
  exact List.count_eq_one_of_mem (h.ring.nodup.filter _) (List.mem_filter.2 ⟨hp, hready⟩)

/-! ### Three processes

The one at `0x200` is blocked. -/

/-- The ring `0x100 → 0x200 → 0x300 → 0x100`, with the first process current. -/
def threeProcesses : Machine where
  currentPcb := 0x100
  kidle := 0
  csr := ⟨0, 0, 0⟩
  mmu := MmuRegs.reset
  pcb := fun p =>
    if p = 0x100 then { Pcb.zero with next := 0x200, pstatus := stateReady }
    else if p = 0x200 then { Pcb.zero with next := 0x300, pstatus := stateBlocked }
    else { Pcb.zero with next := 0x100, pstatus := stateReady }
  region := fun _ => ⟨0, 0, 0⟩

/-- The first decision takes the third process, the second the first again. -/
theorem schedule_round_robin_three :
    scheduleNext threeProcesses = some 0x300 ∧
      ∃ ps t, Decisions 0x40 threeProcesses ps t ∧ ps = [0x300, 0x100] := by
  have hring : threeProcesses.OnRing [0x200, 0x300, 0x100] :=
    ⟨⟨by simp [threeProcesses], rfl, by decide⟩, by decide⟩
  obtain ⟨hnext, hruns, heach⟩ := schedule_round_robin 0x40 threeProcesses _ hring
  obtain ⟨ps, t, hrun, hlen⟩ := hruns (by decide)
  exact ⟨hnext, ps, t, hrun, (heach ps t hrun hlen).1⟩

end RiscyOS
