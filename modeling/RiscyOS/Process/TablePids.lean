import RiscyOS.Process.TableRing

/-!
# Process ids

The id of a process is one byte of its PCB, taken from a counter that is a word; what a parent gets from
`fork`, what a child knows of its parent and what a file operation names its process by is that byte.

* `Kernel.PidsIdentify` — the ids are different and not 0, and `get_pcb_from_id` finds the PCB with a
  given one.  The search goes round the ring, so this builds on `RiscyOS.Process.TableRing`.
* `Kernel.FreshId` — the counter has not come round to an id in use.
* `process_ids` — with ids that are fresh, and children that keep theirs, they identify the processes in
  every state.
-/

set_option autoImplicit false

namespace RiscyOS

open Memory

namespace Kernel

variable {s t : Kernel} {p : Ptr} {idle : Word} {e : Event}

/-- **The ids identify the processes**: no two PCBs handed out have the same, none has that of the
kernel, and looking one up finds the PCB it belongs to. -/
structure PidsIdentify (s : Kernel) : Prop where
  nodup : (s.pcbs.map s.pid).Nodup
  ne_zero : ∀ p ∈ s.pcbs, s.pid p ≠ 0
  found : ∀ p ∈ s.pcbs, s.getPcbFromId (s.pid p) = some p

/-- The id that comes next, as far as it goes into a PCB. -/
def nextId (s : Kernel) : Byte := (s.pcbNextPid + 1).setWidth 8

/-- The id that comes next is not that of the kernel, and not in use. -/
def FreshId (s : Kernel) : Prop := s.nextId ≠ 0 ∧ ∀ p ∈ s.pcbs, s.pid p ≠ s.nextId

/-- The events that keep the ring, and give ids that are new. -/
def PidSafe (s : Kernel) (e : Event) : Prop :=
  s.RingSafe e ∧ match e with
    | .kexecve _ => s.FreshId
    | .fork g => g.Enough → s.FreshId ∧ g.a2.toNat ≤ pcbPid
    | _ => True

/-- **The loop of `get_pcb_from_id`**, with the nodes `l` from `t0` around to `t3`. -/
theorem getPcbLoop_eq {m : Mem} {t3 t0 : Ptr} {a0 : Byte} {l : List Ptr}
    (hchain : List.IsChain (fun x y => word m x pcbNext = y) (t0 :: l)) (hlast : l.getLast? = some t3)
    (hnodup : l.Nodup) {fuel : Nat} (hfuel : l.length ≤ fuel) :
    getPcbLoop m t3 a0 fuel t0 =
      some (((t0 :: l.dropLast).find? fun p => byte m p pcbPid = a0).getD null) := by
  induction l generalizing t0 fuel with
  | nil => exact absurd hlast (by simp)
  | cons x l ih =>
    obtain ⟨fuel, rfl⟩ := Nat.exists_eq_succ_of_ne_zero (Nat.ne_of_gt (Nat.zero_lt_of_lt hfuel))
    obtain ⟨hnext, hchain⟩ := List.isChain_cons_cons.1 hchain
    rw [getPcbLoop]
    simp only [hnext]
    by_cases ht0 : byte m t0 pcbPid = a0
    · rw [if_pos ht0, List.find?_cons, decide_eq_true ht0, Option.getD_some]
    · rw [if_neg ht0, List.find?_cons, decide_eq_false ht0]
      rcases l with _ | ⟨y, l⟩
      · -- back at the start
        obtain rfl : x = t3 := Option.some.inj hlast
        rw [if_neg (not_not.2 rfl)]
        rfl
      · rw [List.getLast?_cons_cons] at hlast
        have hx : x ≠ t3 := by
          rintro rfl
          exact (List.nodup_cons.1 hnodup).1 (List.mem_of_getLast? hlast)
        rw [if_pos hx]
        exact ih hchain hlast (List.nodup_cons.1 hnodup).2 (Nat.le_of_succ_le_succ hfuel)

/-- **`get_pcb_from_id`** looks at every process once. -/
theorem RingFormed.search (h : s.RingFormed) (hcur : s.currentPcb ≠ null) (a0 : Byte) :
    ∃ l : List Ptr, l.Perm s.pcbs ∧ s.getPcbFromId a0 = some ((l.find? fun p => s.pid p = a0).getD null) := by
  rcases h with ⟨hnull, -⟩ | ⟨l, hring, hperm⟩
  · exact absurd hnull hcur
  -- the nodes looked at are those of the ring
  have hvisited : (s.currentPcb :: l.dropLast).Perm s.pcbs := by
    refine (List.Perm.trans ?_ hperm)
    have hsplit := List.dropLast_append_getLast? _ hring.last
    nth_rewrite 2 [← hsplit]
    exact (List.perm_append_singleton _ _).symm
  refine ⟨_, hvisited, ?_⟩
  rw [getPcbFromId, if_neg hcur]
  exact getPcbLoop_eq hring.chain hring.last hring.nodup (length_le_of_nodup hring.nodup)

/-- It finds a process with the id, if there is one. -/
theorem RingFormed.search_cases (h : s.RingFormed) (hcur : s.currentPcb ≠ null) (a0 : Byte) :
    (∃ q ∈ s.pcbs, s.pid q = a0 ∧ s.getPcbFromId a0 = some q) ∨
      (∀ p ∈ s.pcbs, s.pid p ≠ a0) ∧ s.getPcbFromId a0 = some null := by
  obtain ⟨l, hperm, hfound⟩ := h.search hcur a0
  cases hq : l.find? fun p => s.pid p = a0 with
  | none =>
    rw [hq] at hfound
    exact Or.inr ⟨fun p hp hpid => List.find?_eq_none.1 hq p (hperm.mem_iff.2 hp) (decide_eq_true hpid), hfound⟩
  | some q =>
    rw [hq] at hfound
    have hpid := List.find?_some hq
    exact Or.inl ⟨q, hperm.mem_iff.1 (List.mem_of_find?_eq_some hq), of_decide_eq_true hpid, hfound⟩

/-- Only the links and the ids of the nodes matter. -/
theorem getPcbLoop_congr {m m' : Mem} {t3 t0 : Ptr} {a0 : Byte} {l : List Ptr}
    (hnext : ∀ p ∈ l, word m' p pcbNext = word m p pcbNext) (hpid : ∀ p ∈ l, byte m' p pcbPid = byte m p pcbPid)
    (hclosed : ∀ p ∈ l, word m p pcbNext ∈ l) (ht0 : t0 ∈ l) (fuel : Nat) :
    getPcbLoop m' t3 a0 fuel t0 = getPcbLoop m t3 a0 fuel t0 := by
  induction fuel generalizing t0 with
  | zero => rfl
  | succ fuel ih =>
    rw [getPcbLoop, getPcbLoop, hpid t0 ht0, hnext t0 ht0]
    simp only [ih (hclosed t0 ht0)]

/-- **The search in another state** with the same ring. -/
theorem RingFormed.search_congr (h : s.RingFormed) (hcur : t.currentPcb = s.currentPcb) (hsame : s.Same t)
    (a0 : Byte) : t.getPcbFromId a0 = s.getPcbFromId a0 := by
  rw [getPcbFromId, getPcbFromId, hcur]
  rcases h with ⟨hnull, -⟩ | ⟨l, hring, hperm⟩
  · rw [if_pos hnull, if_pos hnull]
  · rw [getPcbLoop_congr (fun p hp => hsame.next p (hperm.subset hp)) (fun p hp => hsame.pid p (hperm.subset hp))
      (fun p hp => hring.next_mem hp) hring.mem]

/-- It finds the process, if that is the only one with its id. -/
theorem getPcbFromId_eq (hpl : s.Placed) (h : s.RingFormed) (hpids : (s.pcbs.map s.pid).Nodup)
    (hp : p ∈ s.pcbs) : s.getPcbFromId (s.pid p) = some p := by
  have hcur : s.currentPcb ≠ null := by
    rintro hnull
    rcases h with ⟨-, hnil⟩ | ⟨l, hring, hperm⟩
    · rw [hnil] at hp
      exact absurd hp List.not_mem_nil
    · exact hpl.null_notMem (hnull ▸ hperm.subset hring.mem)
  rcases h.search_cases hcur (s.pid p) with ⟨q, hq, hpid, hfound⟩ | ⟨hnone, -⟩
  · rw [hfound, List.inj_on_of_nodup_map hpids hq hp hpid]
  · exact absurd rfl (hnone p hp)

/-! ## Steps -/

/-- No two processes have the same id, and none has 0. -/
def PidsNew (s : Kernel) : Prop := (s.pcbs.map s.pid).Nodup ∧ ∀ p ∈ s.pcbs, s.pid p ≠ 0

theorem PidsNew.kept (h : s.PidsNew) (hkept : s.PcbsKept t) : t.PidsNew := by
  rw [PidsNew, hkept.pcbs, List.map_congr_left hkept.pid]
  refine ⟨h.1, fun p hp => ?_⟩
  rw [hkept.pid p hp]
  exact h.2 p hp

/-- A process is made, and its id is fresh. -/
theorem PidsNew.cons (h : s.PidsNew) (hfresh : s.FreshId) (hpcbs : t.pcbs = p :: s.pcbs)
    (hpid : t.pid p = s.nextId) (hsame : ∀ q ∈ s.pcbs, t.pid q = s.pid q) : t.PidsNew := by
  rw [PidsNew, hpcbs, List.map_cons, hpid, List.map_congr_left hsame, List.nodup_cons, List.mem_map]
  refine ⟨⟨?_, h.1⟩, List.forall_mem_cons.2 ⟨?_, fun q hq => ?_⟩⟩
  · rintro ⟨q, hq, heq⟩
    exact hfresh.2 q hq heq
  · rw [hpid]
    exact hfresh.1
  · rw [hsame q hq]
    exact h.2 q hq

/-- **One step keeps the ids apart.** -/
theorem Step.pids (hstep : s.Step idle e t) (hsafe : s.PidSafe e) (hring : s.RingInv) (h : s.PidsNew) :
    t.PidsNew := by
  by_cases hnew : e.Makes
  · cases hstep with
    | kexecve slab hslab =>
      obtain ⟨⟨hnil, hne⟩, hfresh⟩ := hsafe
      refine h.cons hfresh ?_ (kexecve_pid _ slab) fun q hq => ?_
      · simp [Kernel.kexecve, elfLoadSubmit, allocPcb, hne]
      · rw [hnil] at hq
        exact absurd hq List.not_mem_nil
    | fork g hrun hcur hpcb hregion =>
      obtain ⟨⟨htext, hcopy⟩, hid⟩ := hsafe
      obtain ⟨hfresh, hpid⟩ := hid hnew
      have hfork : s.ecall.Forked (s.ecall.ecallFork s.currentPcb g) s.currentPcb g :=
        ecallFork_forked hring.ecall.placed (hring.ring.current_mem hcur) hpcb hregion hnew
          (hcopy hnew).2 htext
      refine h.cons hfresh ?_ (hfork.child_pid hpid) hfork.pid
      rw [ecallFork_eq hnew]
      simp only [forkStart, allocPcb, if_neg hnew.2.1]
      rfl
    | exit | execve | loaded | loadFailed | write | completed | schedule | others => exact hnew.elim
  · exact h.kept (hstep.kept hsafe.1 hring hnew)

theorem Reach.pidsNew (h : Reach idle Booted PidSafe s) : s.RingInv ∧ s.PidsNew := by
  induction h with
  | start h => exact ⟨h.ringInv, by simp [PidsNew, h.pcbs]⟩
  | step _ hsafe hstep ih => exact ⟨hstep.ring hsafe.1 ih.1, hstep.pids hsafe ih.1 ih.2⟩

end Kernel

open Kernel

/-- **Process ids identify processes**, in every state reached from boot by events that keep the ring
and give fresh ids. -/
theorem process_ids (idle : Word) (s : Kernel) (h : Reach idle Booted PidSafe s) : s.PidsIdentify := by
  obtain ⟨hring, hnodup, hne⟩ := h.pidsNew
  exact ⟨hnodup, hne, fun p hp => getPcbFromId_eq hring.placed hring.ring hnodup hp⟩

/-! ### A program that forks, again -/

/-- The two processes have the ids 3 and 2, also when one has exited. -/
theorem process_ids_fork : ∃ s, Reach 0x500 Booted PidSafe s ∧ s.exited = [0x1000] ∧
    s.pcbs.map s.pid = [3, 2] ∧ s.PidsIdentify := by
  have hrun : Reach 0x500 Booted PidSafe forkRunning :=
    forkRunning_reach (forkStarted_reach
      ⟨⟨rfl, by decide⟩, by decide, fun p hp => absurd hp List.not_mem_nil⟩ ⟨trivial, trivial⟩)
      ⟨⟨by decide +kernel, by decide +kernel⟩, trivial⟩ ⟨trivial, trivial⟩
  have hcopy : forkRunning.PidSafe (.fork (forkGrants 164)) := by
    refine ⟨⟨by decide +kernel, fun _ => ⟨by decide, by decide⟩⟩, fun _ => ⟨⟨by decide +kernel, ?_⟩, ?_⟩⟩
    · have hpcbs : forkRunning.pcbs = [0x1000] := by decide +kernel
      rw [hpcbs]
      exact List.forall_mem_singleton.2 (by decide +kernel)
    · decide
  have hquiet : (forkDone 164).PidSafe (.exit 0) :=
    ⟨⟨by decide +kernel, by decide +kernel, 0x1000, by decide +kernel, by decide, by decide +kernel⟩,
      trivial⟩
  have hexit : Reach 0x500 Booted PidSafe forkExited :=
    (hrun.step hcopy (forkDone_step 164)).step hquiet forkExited_step
  exact ⟨_, hexit, by decide +kernel, by decide +kernel, process_ids _ _ hexit⟩

/-- With 172 in `a2` the child gets the id of its parent with the rest. -/
theorem fork_shares_id : ¬ ∀ s, Reach 0x500 Booted (fun _ _ => True) s → s.PidsIdentify := by
  intro h
  have hrun : Reach 0x500 Booted (fun _ _ => True) forkRunning :=
    forkRunning_reach (forkStarted_reach trivial trivial) trivial trivial
  have hfork := h _ (hrun.step trivial (forkDone_step 172))
  exact absurd hfork.nodup (by decide +kernel)

end RiscyOS
