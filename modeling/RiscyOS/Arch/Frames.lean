import RiscyOS.Arch.Routines

/-!
# Four routines and their frames

What becomes of the stack and of the return address in `get_next_cluster`, `ecall_read`,
`irsq_serial_write` and `tty_enqueue_recieve`, when the routines they call return
(`Image.CallsReturn`).

* `get_next_cluster` takes `ra` back from the slot of `a0`, and so returns to the number of a cluster
  (`getNextCluster_exits`).
* `ecall_read` has no frame, and the call inside it leaves it a return address of its own.
* `irsq_serial_write` never takes its frame down.
* `tty_enqueue_recieve` takes it down after a backspace or a new line.  The other ways out have a second
  push where the pop should be (`ttyRecieve_exits`).

`routines_balanced_iff` puts the four together.
-/

set_option autoImplicit false

namespace RiscyOS

open Memory Riscv Riscv.Image

variable {img : Image Fn Sym} {s : Hart}

/-- A frame put up and taken down. -/
theorem frame_up_down (v n : Word) : v + -n + n = v := by
  rw [BitVec.add_assoc, BitVec.add_comm (-n), BitVec.add_right_neg, BitVec.add_zero]

/-! ## `get_next_cluster` -/

/-- The hart when `sd_tail_read` is called, but for the return address. -/
def sdTailReadCall (img : Image Fn Sym) (s : Hart) : Hart :=
  img.exec (.sw .ra 4 .sp) (img.exec (.sw .a0 0 .sp) (img.exec (.addi .sp .sp (-8)) s))

/-- The hart when `sd_tail_read` is back. -/
def afterSdTailRead (img : Image Fn Sym) (s : Hart) : Hart :=
  img.callee .sdTailRead ((sdTailReadCall img s).set .ra (img.point 9))

theorem sdTailReadCall_sp : (sdTailReadCall img s).get .sp = s.get .sp + -8 := by
  simp (disch := decide) only [sdTailReadCall, get_exec_of_ne, get_exec_addi]

theorem sdTailReadCall_slot : word (sdTailReadCall img s).mem (s.get .sp + -8) 0 = s.get .a0 := by
  simp (disch := decide) only [sdTailReadCall, get_exec_of_ne, get_exec_addi, mem_exec_sw,
    word_setWord_ne, word_setWord]

/-- From there to the return. -/
theorem getNextCluster_return (img : Image Fn Sym) (t : Hart) : ∃ e,
    img.Exits getNextClusterCode (getNextClusterCode.drop 5) t e ∧ e.target = none ∧
      e.hart.get .sp = t.get .sp + 8 ∧ e.hart.get .ra = word t.mem (t.get .sp) 0 ∧
      e.hart.get .a0 = word t.mem (spiBase + spiRxRam + (word t.mem (t.get .sp) 0).srem 512) 0 := by
  refine ⟨_, Leads.exits_ret (.op (.op (.op (.op (.op (.op (.op (.op .refl)))))))), rfl, ?_, ?_, ?_⟩
  · simp (disch := decide) only [get_exec_of_ne, get_exec_addi]
  · simp (disch := decide) only [get_exec_of_ne, get_exec_lw, mem_exec_of_dest]
  · simp (disch := decide) only [get_exec_of_ne, get_exec_lw, get_exec_add, get_exec_rem, get_exec_li,
      mem_exec_of_dest]

/-- **It returns to its own argument**, with a word of the receive buffer. -/
theorem getNextCluster_exits (h : img.CallsReturn 8 getNextClusterCode getNextClusterCode s) : ∃ e,
    img.Exits getNextClusterCode getNextClusterCode s e ∧ e.target = none ∧
      e.hart.get .sp = s.get .sp ∧ e.hart.get .ra = s.get .a0 ∧
      e.hart.get .a0 = word (afterSdTailRead img s).mem
        (spiBase + spiRxRam + (s.get .a0).srem 512) 0 := by
  have hret := h _ _ _ (.label (.op (.op (.op .refl))))
  have hsp : (afterSdTailRead img s).get .sp = s.get .sp + -8 := hret.sp_call.trans sdTailReadCall_sp
  have hslot : word (afterSdTailRead img s).mem (s.get .sp + -8) 0 = s.get .a0 :=
    (hret.word_call (by decide) sdTailReadCall_sp).trans sdTailReadCall_slot
  obtain ⟨e, he, htarget, hesp, hera, hea0⟩ := getNextCluster_return img (afterSdTailRead img s)
  rw [hsp] at hesp hera hea0
  rw [hslot] at hera hea0
  refine ⟨e, Leads.exits (.label (.op (.op (.op (.call .refl))))) he, htarget, ?_, hera, hea0⟩
  exact hesp.trans (frame_up_down _ 8)

/-! ## `ecall_read` -/

theorem ecallRead_exits (h : img.CallsReturn 0 ecallReadCode ecallReadCode s) : ∃ e,
    img.Exits ecallReadCode ecallReadCode s e ∧ e.hart.get .sp = s.get .sp ∧
      e.hart.get .ra = img.point 1 := by
  have hret := h _ _ _ (.label .refl)
  exact ⟨_, Leads.exits_ret (.label (.call .refl)), hret.sp_call, hret.ra_call⟩

/-! ## `irsq_serial_write` -/

theorem irsqSerialWrite_exits (h : img.CallsReturn 4 irsqSerialWriteCode irsqSerialWriteCode s) : ∃ e,
    img.Exits irsqSerialWriteCode irsqSerialWriteCode s e ∧ e.hart.get .sp = s.get .sp + -4 := by
  have hret := h _ _ _ (.label (.op (.op .refl)))
  obtain ⟨t, ht, hlead⟩ : ∃ t : Hart, t.get .sp = s.get .sp + -4 ∧
      img.Leads irsqSerialWriteCode irsqSerialWriteCode s (irsqSerialWriteCode.drop 4) t := by
    refine ⟨_, hret.sp_call.trans ?_, .label (.op (.op (.call .refl)))⟩
    simp (disch := decide) only [get_exec_of_ne, get_exec_addi]
  by_cases ha0 : t.get .a0 = 0
  · exact ⟨_, Leads.exits_ret (hlead.trans (.beqz_of_eq ha0 (.label .refl))), ht⟩
  · refine ⟨_, Leads.exits_ret (hlead.trans (.beqz_of_ne ha0 (.op (.op (.label .refl))))), ?_⟩
    simp (disch := decide) only [get_exec_of_ne]
    exact ht

/-! ## `tty_enqueue_recieve` -/

/-- After a backspace the frame is taken down. -/
theorem ttyEchoBackspace_exits {t : Hart} (h : img.CallsReturn 4 ttyRecieveHalf ttyRecieveHalf t) : ∃ e,
    img.Exits ttyRecieveHalf ttyRecieveHalf t e ∧ e.hart.get .sp = t.get .sp + 4 ∧
      e.hart.get .ra = word t.mem (t.get .sp) 0 := by
  have hret := h _ _ _ (.label .refl)
  have hret' := h _ _ _ (.label (.call (.op .refl)))
  refine ⟨_, Leads.exits_tail (.label (.call (.op (.call (.op (.op (.op .refl))))))), ?_, ?_⟩
  · simp (disch := decide) only [get_exec_of_ne, get_exec_addi]
    rw [hret'.sp_call, get_exec_of_ne (by decide), hret.sp_call]
  · simp (disch := decide) only [get_exec_of_ne, get_exec_lw, mem_exec_of_dest]
    rw [hret'.sp_call, get_exec_of_ne (by decide), hret.sp_call, hret'.word_call (by decide)
      ((get_exec_of_ne (by decide)).trans hret.sp_call), mem_exec_of_dest (by decide),
      hret.word_call (by decide) rfl]

/-- After a new line it is, too. -/
theorem ttyEchoNewLine_exits {t : Hart} (h : img.CallsReturn 4 ttyRecieveHalf ttyEchoNewLineCode t) : ∃ e,
    img.Exits ttyRecieveHalf ttyEchoNewLineCode t e ∧ e.hart.get .sp = t.get .sp + 4 ∧
      e.hart.get .ra = word t.mem (t.get .sp) 0 := by
  have hret := h _ _ _ (.label (.op .refl))
  refine ⟨_, Leads.exits_tail (.label (.op (.call (.op (.op (.op .refl)))))), ?_, ?_⟩
  · simp (disch := decide) only [get_exec_of_ne, get_exec_addi]
    rw [hret.sp_call, get_exec_of_ne (by decide)]
  · simp (disch := decide) only [get_exec_of_ne, get_exec_lw, mem_exec_of_dest]
    rw [hret.sp_call, get_exec_of_ne (by decide),
      hret.word_call (by decide) (get_exec_of_ne (by decide)), mem_exec_of_dest (by decide)]

/-- **The other ways out push once more** where they should pop. -/
theorem ttyRecieve_exits {t : Hart} (h : img.CallsReturn 4 ttyRecieveHalf ttyRecieveCode t) : ∃ e,
    img.Exits ttyRecieveHalf ttyRecieveCode t e ∧ e.hart.get .sp = t.get .sp + -4 := by
  obtain ⟨u, hu, hlead⟩ : ∃ u : Hart, u.get .sp = t.get .sp ∧
      img.Leads ttyRecieveHalf ttyRecieveCode t (ttyRecieveCode.drop 2) u := by
    refine ⟨_, ?_, .op (.op .refl)⟩
    simp (disch := decide) only [get_exec_of_ne]
  by_cases ht0 : u.get .t0 = 0
  · refine ⟨_, Leads.exits_tail (hlead.trans (.beqz_of_eq ht0 (.label (.op (.op (.op .refl)))))), ?_⟩
    simp (disch := decide) only [get_exec_of_ne, get_exec_addi, hu]
  obtain ⟨w, hw, hlead'⟩ : ∃ w : Hart, w.get .sp = t.get .sp ∧
      img.Leads ttyRecieveHalf ttyRecieveCode t (ttyRecieveCode.drop 8) w := by
    refine ⟨_, ?_, hlead.trans (.beqz_of_ne ht0 (.op (.op (.op (.op (.op .refl))))))⟩
    simp (disch := decide) only [get_exec_of_ne, hu]
  by_cases hdone : w.get .t2 = w.get .t3
  · have hret := h _ _ _ (hlead'.trans (.beq_of_eq hdone (.label (.op (.op (.op .refl))))))
    refine ⟨_, Leads.exits_tail (hlead'.trans
      (.beq_of_eq hdone (.label (.op (.op (.op (.call (.op (.op .refl))))))))), ?_⟩
    simp (disch := decide) only [get_exec_of_ne, get_exec_addi]
    rw [hret.sp_call]
    simp (disch := decide) only [get_exec_of_ne, hw]
  · refine ⟨_, Leads.exits_ret (hlead'.trans
      (.beq_of_ne hdone (.op (.op (.op (.op (.op .refl))))))), ?_⟩
    simp (disch := decide) only [get_exec_of_ne, get_exec_addi, hw]

/-- Where the character is told from a backspace. -/
theorem ttyEnqueueRecieve_enter (img : Image Fn Sym) (s : Hart) : ∃ t : Hart,
    t.get .sp = s.get .sp + -4 ∧ t.get .a0 = word t.mem (img.symbol .ttyInfo) 0 + BitVec.ofNat 32 echoFifo ∧
      t.get .a1 = s.get .a0 ∧ t.get .t0 = backspace ∧
      t.mem = setWord s.mem (s.get .sp + -4) 0 (s.get .ra) ∧
      img.Leads ttyRecieveHalf ttyEnqueueRecieveCode s (ttyEnqueueRecieveCode.drop 8) t := by
  refine ⟨_, ?_, ?_, ?_, ?_, ?_, .label (.op (.op (.op (.op (.op (.op (.op .refl)))))))⟩
  · simp (disch := decide) only [get_exec_of_ne, get_exec_addi]
  · simp (disch := decide) only [get_exec_of_ne, get_exec_addi, get_exec_lw, get_exec_la, mem_exec_of_dest]
  · simp (disch := decide) only [get_exec_of_ne, get_exec_mv]
  · exact get_exec_li (by decide)
  · simp (disch := decide) only [get_exec_of_ne, get_exec_addi, mem_exec_of_dest, mem_exec_sw]

/-- **The frame of `tty_enqueue_recieve`** is taken down for two characters of all. -/
theorem ttyEnqueueRecieve_exits (h : img.CallsReturn 4 ttyRecieveHalf ttyEnqueueRecieveCode s) : ∃ e,
    img.Exits ttyRecieveHalf ttyEnqueueRecieveCode s e ∧
      (s.get .a0 = backspace ∨ s.get .a0 = newLine →
        e.hart.get .sp = s.get .sp ∧ e.hart.get .ra = s.get .ra) ∧
      (¬ (s.get .a0 = backspace ∨ s.get .a0 = newLine) → e.hart.get .sp = s.get .sp + -8) := by
  obtain ⟨t, hsp, -, ha1, ht0, hmem, hlead⟩ := ttyEnqueueRecieve_enter img s
  have hslot : word t.mem (s.get .sp + -4) 0 = s.get .ra := by rw [hmem, word_setWord]
  by_cases hback : s.get .a0 = backspace
  · have hto : img.Leads ttyRecieveHalf ttyEnqueueRecieveCode s ttyRecieveHalf t :=
      hlead.trans (.beq_of_eq (by rw [ha1, ht0, hback]) .refl)
    obtain ⟨e, he, hesp, hera⟩ := ttyEchoBackspace_exits (h.of_leads hto)
    rw [hsp] at hesp hera
    refine ⟨e, hto.exits he, fun _ => ⟨?_, hera.trans hslot⟩, fun hne => absurd (Or.inl hback) hne⟩
    exact hesp.trans (frame_up_down _ 4)
  have hne : t.get .a1 ≠ t.get .t0 := by rwa [ha1, ht0]
  obtain ⟨u, husp, hua1, hut0, huslot, hlead'⟩ : ∃ u : Hart, u.get .sp = s.get .sp + -4 ∧
      u.get .a1 = s.get .a0 ∧ u.get .t0 = newLine ∧ word u.mem (s.get .sp + -4) 0 = s.get .ra ∧
        img.Leads ttyRecieveHalf ttyEnqueueRecieveCode s (ttyEnqueueRecieveCode.drop 10) u := by
    refine ⟨_, ?_, ?_, ?_, ?_, hlead.trans (.beq_of_ne hne (.op .refl))⟩
    · simp (disch := decide) only [get_exec_of_ne, hsp]
    · simp (disch := decide) only [get_exec_of_ne, ha1]
    · exact get_exec_li (by decide)
    · rw [mem_exec_of_dest (by decide), hslot]
  by_cases hnew : s.get .a0 = newLine
  · have hto : img.Leads ttyRecieveHalf ttyEnqueueRecieveCode s ttyEchoNewLineCode u :=
      hlead'.trans (.beq_of_eq (by rw [hua1, hut0, hnew]) .refl)
    obtain ⟨e, he, hesp, hera⟩ := ttyEchoNewLine_exits (h.of_leads hto)
    rw [husp] at hesp hera
    refine ⟨e, hto.exits he, fun _ => ⟨?_, hera.trans huslot⟩, fun hne => absurd (Or.inr hnew) hne⟩
    exact hesp.trans (frame_up_down _ 4)
  · have hne : u.get .a1 ≠ u.get .t0 := by rwa [hua1, hut0]
    have hret := h _ _ _ (hlead'.trans (.beq_of_ne hne .refl))
    have hto := hlead'.trans (.beq_of_ne hne (.call .refl))
    obtain ⟨e, he, hesp⟩ := ttyRecieve_exits (h.of_leads hto)
    rw [hret.sp_call, husp, BitVec.add_assoc] at hesp
    exact ⟨e, hto.exits he, fun hor => absurd hor (not_or.2 ⟨hback, hnew⟩), fun _ => hesp⟩

/-! ## The four of them -/

/-- The routines of this file. -/
inductive Routine where
  | getNextCluster
  | ecallRead
  | irsqSerialWrite
  | ttyEnqueueRecieve
  deriving DecidableEq

namespace Routine

/-- The lines among which its branches look for their labels. -/
def code : Routine → Code
  | .getNextCluster => getNextClusterCode
  | .ecallRead => ecallReadCode
  | .irsqSerialWrite => irsqSerialWriteCode
  | .ttyEnqueueRecieve => ttyRecieveHalf

/-- Where it is entered. -/
def entry : Routine → Code
  | .ttyEnqueueRecieve => ttyEnqueueRecieveCode
  | r => r.code

/-- The size of its frame. -/
def frame : Routine → Nat
  | .getNextCluster => 8
  | .ecallRead => 0
  | .irsqSerialWrite => 4
  | .ttyEnqueueRecieve => 4

/-- **When it goes back to its caller.** -/
def GoesBack (img : Image Fn Sym) (s : Hart) : Routine → Prop
  | .getNextCluster => s.get .ra = s.get .a0
  | .ecallRead => s.get .ra = img.point 1
  | .irsqSerialWrite => False
  | .ttyEnqueueRecieve => s.get .a0 = backspace ∨ s.get .a0 = newLine

end Routine

/-- A stack pointer that has moved is not where it was. -/
theorem add_ne_self {v n : Word} (hn : n ≠ 0) : v + n ≠ v := by
  intro h
  exact hn (by bv_omega)

/-- **A routine goes back to its caller, on the same stack,** exactly in these cases. -/
theorem routines_balanced_iff (r : Routine) (img : Image Fn Sym) (s : Hart)
    (h : img.CallsReturn r.frame r.code r.entry s) :
    (∀ e, img.Exits r.code r.entry s e → StackBalanced s e) ↔ r.GoesBack img s := by
  cases r with
  | getNextCluster =>
    obtain ⟨e, he, -, hsp, hra, -⟩ := getNextCluster_exits h
    refine he.balanced_iff.trans ?_
    rw [StackBalanced, hsp, hra, Routine.GoesBack]
    exact ⟨fun hb => hb.2.symm, fun hk => ⟨rfl, hk.symm⟩⟩
  | ecallRead =>
    obtain ⟨e, he, hsp, hra⟩ := ecallRead_exits h
    refine he.balanced_iff.trans ?_
    rw [StackBalanced, hsp, hra, Routine.GoesBack]
    exact ⟨fun hb => hb.2.symm, fun hk => ⟨rfl, hk.symm⟩⟩
  | irsqSerialWrite =>
    obtain ⟨e, he, hsp⟩ := irsqSerialWrite_exits h
    refine he.balanced_iff.trans ?_
    rw [StackBalanced, hsp]
    exact iff_of_false (fun hb => add_ne_self (by decide) hb.1) id
  | ttyEnqueueRecieve =>
    obtain ⟨e, he, hyes, hno⟩ := ttyEnqueueRecieve_exits h
    refine he.balanced_iff.trans ⟨fun hb => ?_, hyes⟩
    by_contra hk
    rw [StackBalanced, hno hk] at hb
    exact add_ne_self (by decide) hb.1

/-- `fifo_enqueue`, on an empty FIFO of a hundred bytes: nothing is stored. -/
def emptyFifoEnqueue (s : Hart) : Hart :=
  ((((s.set .t0 (word s.mem (s.get .a0) fifoBase)).set .t1 0).set .t2 1).set .t3 100).set .t4
    (word s.mem (s.get .a0) fifoBase)

/-- A kernel in which that is called. -/
def echoImage : Image Fn Sym where
  symbol _ := 0x800
  point n := 0x400 - BitVec.ofNat 32 (4 * n)
  callee _ := emptyFifoEnqueue

theorem echoImage_returns (frame : Nat) (f : Fn) (s : Hart) : echoImage.Returns frame f s := by
  refine ⟨?_, ?_, fun x _ => rfl⟩
  · simp (disch := decide) only [echoImage, emptyFifoEnqueue, Hart.get_set_of_ne]
  · simp (disch := decide) only [echoImage, emptyFifoEnqueue, Hart.get_set_of_ne]

/-- A character is received. -/
def recieveHart (c : Word) : Hart where
  reg
    | .a0 => c
    | .sp => 0x3000
    | .ra => 0x500
    | _ => 0
  mem _ := 0

/-- A backspace comes back. -/
theorem routines_balanced_backspace : ∃ e, echoImage.Exits ttyRecieveHalf ttyEnqueueRecieveCode
    (recieveHart backspace) e ∧ StackBalanced (recieveHart backspace) e := by
  have hcalls : echoImage.CallsReturn 4 ttyRecieveHalf ttyEnqueueRecieveCode (recieveHart backspace) :=
    fun f _ _ _ => echoImage_returns 4 f _
  obtain ⟨e, he, -, -⟩ := ttyEnqueueRecieve_exits hcalls
  exact ⟨e, he, (routines_balanced_iff .ttyEnqueueRecieve echoImage _ hcalls).2 (Or.inl rfl) e he⟩

/-- An `A` does not. -/
theorem recieve_unbalanced : ∃ e, echoImage.Exits ttyRecieveHalf ttyEnqueueRecieveCode
    (recieveHart 65) e ∧ e.hart.get .sp = 0x2ff8 ∧ ¬ StackBalanced (recieveHart 65) e := by
  obtain ⟨e, he, -, hno⟩ := ttyEnqueueRecieve_exits (s := recieveHart 65)
    (fun f _ _ _ => echoImage_returns 4 f _)
  have hsp : e.hart.get .sp = 0x2ff8 := hno (by decide)
  refine ⟨e, he, hsp, fun hb => ?_⟩
  rw [StackBalanced, hsp] at hb
  exact absurd hb.1 (by decide)

end RiscyOS
