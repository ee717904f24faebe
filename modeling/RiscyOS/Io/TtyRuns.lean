import RiscyOS.Arch.Frames
import RiscyOS.Io.Tty

/-!
# Runs of the TTY

The TTY as `tty_init` leaves it has empty FIFOs and nobody waiting (`TtyIdle`).  It stays like that as long
as no request is made and no character comes in but those that `tty_enqueue_recieve` treats apart, and
then it does what it is for (`writes_delivered`, `reads_delivered`).
-/

set_option autoImplicit false

namespace RiscyOS

open Memory Riscv Riscv.Image

variable {L : TtyLink} {reg : Reg → Word} {m m' : Mem} {s : Hart} {q : Reg}

/-- There is one way to come back. -/
theorem TtyStep.unique {code entry : Code} {t t' : Hart} (h : TtyStep L code entry reg m t)
    (h' : TtyStep L code entry reg m t') : t = t' := by
  obtain ⟨e, he, -, rfl⟩ := h
  obtain ⟨e', he', -, rfl⟩ := h'
  rw [he.unique he']

/-! ## Calls on an empty FIFO -/

/-- **`fifo_enqueue` on an empty FIFO** changes nothing but temporaries. -/
theorem fifoEnqueue_call (h : FifoEmpty s.mem (s.get .a0)) (r : Word) :
    (∀ q ∉ [Reg.ra, .t0, .t1, .t2, .t3, .t4],
      (L.image.callee .fifoEnqueue (s.set .ra r)).get q = s.get q) ∧
      (L.image.callee .fifoEnqueue (s.set .ra r)).mem = s.mem := by
  constructor
  · intro q hq
    simp only [List.mem_cons, List.not_mem_nil, or_false, not_or] at hq
    obtain ⟨hra, h0, h1, h2, h3, h4⟩ := hq
    exact (Hart.get_set_of_ne h4).trans ((Hart.get_set_of_ne h3).trans ((Hart.get_set_of_ne h2).trans
      ((Hart.get_set_of_ne h1).trans ((Hart.get_set_of_ne h0).trans (Hart.get_set_of_ne hra)))))
  · refine fifoEnqueue_empty ?_ _
    rwa [Hart.get_set_of_ne (by decide)]

/-- **`fifo_dequeue` on an empty FIFO** returns zero. -/
theorem fifoDequeue_call (h : FifoEmpty s.mem (s.get .a0)) (r : Word) :
    (L.image.callee .fifoDequeue (s.set .ra r)).get .a0 = 0 ∧
      (∀ q ∉ [Reg.ra, .t0, .t1, .t2, .a0],
        (L.image.callee .fifoDequeue (s.set .ra r)).get q = s.get q) ∧
      (L.image.callee .fifoDequeue (s.set .ra r)).mem = s.mem := by
  have h' : FifoEmpty (s.set .ra r).mem ((s.set .ra r).get .a0) := by
    rwa [Hart.mem_set, Hart.get_set_of_ne (by decide)]
  have hcall : L.image.callee .fifoDequeue (s.set .ra r) = ((((s.set .ra r).set .t0 (word (s.set .ra r).mem
      ((s.set .ra r).get .a0) fifoBase)).set .t1 0).set .t2 0).set .a0 0 := by
    show callFifoDequeue (s.set .ra r) = _
    rw [callFifoDequeue, if_pos (by rw [lb_zero h'.head_eq, lb_zero h'.tail_eq]), lb_zero h'.head_eq,
      lb_zero h'.tail_eq, fifoDequeue_empty h']
  rw [hcall]
  refine ⟨Hart.get_set_self (by decide), ?_, rfl⟩
  intro q hq
  simp only [List.mem_cons, List.not_mem_nil, or_false, not_or] at hq
  obtain ⟨hra, h0, h1, h2, ha⟩ := hq
  exact (Hart.get_set_of_ne ha).trans ((Hart.get_set_of_ne h2).trans ((Hart.get_set_of_ne h1).trans
    ((Hart.get_set_of_ne h0).trans (Hart.get_set_of_ne hra))))

/-! ## The TTY with nothing to do -/

/-- Empty FIFOs, and nobody waiting. -/
structure TtyIdle (L : TtyLink) (m : Mem) : Prop where
  rx : FifoEmpty m (L.tty m + BitVec.ofNat 32 rxFifo)
  echo : FifoEmpty m (L.tty m + BitVec.ofNat 32 echoFifo)
  writes : word m (L.tty m) ttyWriteQueueHead = null
  reads : word m (L.tty m) ttyReadQueueHead = null

theorem TtyLink.LeftAlone.tty_eq (h : L.LeftAlone m m') : L.tty m' = L.tty m := by
  refine load32_congr fun x hx => h.1 x ?_
  rwa [BitVec.add_zero] at hx

/-- A field of the struct. -/
theorem TtyLink.LeftAlone.word_eq (h : L.LeftAlone m m') {i : Nat} (hi : i + 4 ≤ ttyStructSize) :
    word m' (L.tty m) i = word m (L.tty m) i :=
  load32_congr fun x hx => h.2 x (has_of_part (show (part (L.tty m) i 4).Has x from hx) hi)

/-- A byte of one of the FIFOs in it. -/
theorem TtyLink.LeftAlone.byte_eq (h : L.LeftAlone m m') {i j : Nat} (hi : i + j + 1 ≤ ttyStructSize) :
    byte m' (L.tty m + BitVec.ofNat 32 i) j = byte m (L.tty m + BitVec.ofNat 32 i) j := by
  rw [byte, byte, BitVec.add_assoc, ← BitVec.ofNat_add]
  refine h.2 _ (has_of_part (i := i + j) (n := 1) ?_ hi)
  rw [Span.Has, part, BitVec.sub_self]
  exact Nat.one_pos

theorem FifoEmpty.leftAlone {i : Nat} (h : FifoEmpty m (L.tty m + BitVec.ofNat 32 i))
    (hl : L.LeftAlone m m') (hi : i + fifoSize + 1 ≤ ttyStructSize) :
    FifoEmpty m' (L.tty m + BitVec.ofNat 32 i) := by
  have hbyte : ∀ j ≤ fifoSize, byte m' (L.tty m + BitVec.ofNat 32 i) j =
      byte m (L.tty m + BitVec.ofNat 32 i) j := by
    intro j hj
    exact hl.byte_eq (by omega)
  refine ⟨?_, ?_, ?_, ?_⟩
  · rw [hbyte _ (by decide), h.head_eq]
  · rw [hbyte _ (by decide), h.tail_eq]
  · rw [hbyte _ (by decide)]
    exact h.le_size
  · rw [hbyte _ (by decide)]
    exact h.size_le

/-- **Left alone, it stays idle.** -/
theorem TtyIdle.leftAlone (h : TtyIdle L m) (hl : L.LeftAlone m m') : TtyIdle L m' := by
  refine ⟨?_, ?_, ?_, ?_⟩ <;> rw [hl.tty_eq]
  · exact h.rx.leftAlone hl (by decide)
  · exact h.echo.leftAlone hl (by decide)
  · rw [hl.word_eq (by decide), h.writes]
  · rw [hl.word_eq (by decide), h.reads]

/-- A frame on the stack leaves it alone. -/
theorem TtyLink.StackOk.leftAlone (h : L.StackOk reg m) {n : Nat} (hn : n ≤ 32)
    (hm : Alters [⟨reg .sp + -BitVec.ofNat 32 n, n⟩] m m') : L.LeftAlone m m' := by
  obtain ⟨hinfo, hstruct⟩ := h n hn
  constructor
  · intro x hx
    exact hm.apply_of_apart hx (List.forall_mem_singleton.2 hinfo)
  · intro x hx
    exact hm.apply_of_apart hx (List.forall_mem_singleton.2 hstruct)

/-- A byte of a FIFO in the struct is a byte of the struct. -/
theorem byte_add (m : Mem) (p : Word) (i j : Nat) :
    byte m (p + BitVec.ofNat 32 i) j = byte m p (i + j) := by
  rw [byte, byte, BitVec.add_assoc, ← BitVec.ofNat_add]

/-- **`tty_init` leaves it idle.** -/
theorem ttyInit_idle (L : TtyLink) (m : Mem) (tty rx echo : Ptr)
    (h : (Span.mk L.ttyInfo 4).Apart ⟨tty, ttyStructSize⟩) : TtyIdle L (L.ttyInit m tty rx echo) := by
  have hinfo : L.tty (L.ttyInit m tty rx echo) = tty := by
    simp (disch := decide) only [TtyLink.tty, TtyLink.ttyInit, word_setWord_apart h.symm,
      word_setByte_apart h.symm, word_setWord]
  refine ⟨?_, ?_, ?_, ?_⟩ <;> rw [hinfo]
  · have hsize : byte (L.ttyInit m tty rx echo) (tty + BitVec.ofNat 32 rxFifo) fifoSize = rxQueueSize := by
      rw [byte_add]
      simp (disch := decide) only [TtyLink.ttyInit, byte_setWord_ne, byte_setByte_ne, byte_setByte]
    refine ⟨?_, ?_, by rw [hsize]; decide, by rw [hsize]; decide⟩ <;> rw [byte_add] <;>
      simp (disch := decide) only [TtyLink.ttyInit, byte_setWord_ne, byte_setByte_ne, byte_setByte]
  · have hsize : byte (L.ttyInit m tty rx echo) (tty + BitVec.ofNat 32 echoFifo) fifoSize =
        echoQueueSize := by
      rw [byte_add]
      simp (disch := decide) only [TtyLink.ttyInit, byte_setWord_ne, byte_setByte]
    refine ⟨?_, ?_, by rw [hsize]; decide, by rw [hsize]; decide⟩ <;> rw [byte_add] <;>
      simp (disch := decide) only [TtyLink.ttyInit, byte_setWord_ne, byte_setByte_ne, byte_setByte]
  · simp (disch := decide) only [TtyLink.ttyInit, word_setWord_ne, word_setByte_ne,
      word_setWord_apart h, word_setWord, null]
  · simp (disch := decide) only [TtyLink.ttyInit, word_setWord_ne, word_setByte_ne,
      word_setWord_apart h, word_setWord, null]

/-! ## A transmit interrupt -/

/-- Up to the call of `fifo_dequeue`. -/
theorem ttyDequeueWrite_enter (L : TtyLink) (s : Hart) : ∃ u : Hart,
    u.get .sp = s.get .sp + -8 ∧ u.get .s0 = word u.mem L.ttyInfo 0 ∧
      u.get .a0 = word u.mem L.ttyInfo 0 + BitVec.ofNat 32 echoFifo ∧
      u.mem = setWord (setWord s.mem (s.get .sp + -8) 0 (s.get .s0)) (s.get .sp + -8) 4 (s.get .ra) ∧
      L.image.Leads ttyDequeueWriteCode ttyDequeueWriteCode s (ttyDequeueWriteCode.drop 7) u := by
  refine ⟨_, ?_, ?_, ?_, ?_, .label (.op (.op (.op (.op (.op (.op .refl))))))⟩
  · simp (disch := decide) only [get_exec_of_ne, get_exec_addi]
  · simp (disch := decide) only [get_exec_of_ne, get_exec_lw, get_exec_la, mem_exec_of_dest]
    rfl
  · simp (disch := decide) only [get_exec_addi, get_exec_lw, get_exec_la, mem_exec_of_dest]
    rfl
  · simp (disch := decide) only [get_exec_of_ne, get_exec_addi, mem_exec_of_dest, mem_exec_sw]

/-- From its end to the return. -/
theorem ttyDequeueWrite_return (L : TtyLink) (v : Hart) : ∃ e,
    L.image.Exits ttyDequeueWriteCode ttyDequeueWriteEndCode v e ∧ e.target = none ∧
      e.hart.get .sp = v.get .sp + 8 ∧ e.hart.get .ra = word v.mem (v.get .sp) 4 ∧
      e.hart.get .a0 = v.get .a0 ∧ e.hart.mem = v.mem := by
  refine ⟨_, Leads.exits_ret (.label (.op (.op (.op .refl)))), rfl, ?_, ?_, ?_, ?_⟩
  · simp (disch := decide) only [get_exec_of_ne, get_exec_addi]
  · simp (disch := decide) only [get_exec_of_ne, get_exec_lw, mem_exec_of_dest]
  · simp (disch := decide) only [get_exec_of_ne]
  · simp (disch := decide) only [mem_exec_of_dest]

/-- **Idle, a transmit interrupt gets nothing** and comes back. -/
theorem transmit_idle (h : TtyIdle L m) (hs : L.StackOk reg m) : ∃ t,
    TtyStep L ttyDequeueWriteCode ttyDequeueWriteCode reg m t ∧ t.get .a0 = 0 ∧ L.LeftAlone m t.mem := by
  obtain ⟨u, husp, hus0, hua0, humem, hlead⟩ := ttyDequeueWrite_enter L ⟨reg, m⟩
  have halter : Alters [⟨reg .sp + -BitVec.ofNat 32 8, 8⟩] m u.mem := by
    rw [humem]
    exact ((Alters.refl _ _).setWord (.part List.mem_cons_self (by decide))).setWord
      (.part List.mem_cons_self (by decide))
  have halone : L.LeftAlone m u.mem := hs.leftAlone (by decide) halter
  have hidle := h.leftAlone halone
  -- the echo FIFO has nothing
  obtain ⟨v, hva0, hvq, hvmem, hcall⟩ : ∃ v : Hart, v.get .a0 = 0 ∧
      (∀ q ∉ [Reg.ra, .t0, .t1, .t2, .a0], v.get q = u.get q) ∧ v.mem = u.mem ∧
      L.image.Leads ttyDequeueWriteCode (ttyDequeueWriteCode.drop 7) u (ttyDequeueWriteCode.drop 8) v := by
    have hempty : FifoEmpty u.mem (u.get .a0) := by
      rw [hua0]
      exact hidle.echo
    obtain ⟨ha0, hq, hmem⟩ := fifoDequeue_call (L := L) hempty _
    exact ⟨_, ha0, hq, hmem, .call .refl⟩
  -- and nobody has a byte to write
  obtain ⟨w, hwa0, hwsp, hwmem, hlook⟩ : ∃ w : Hart, w.get .a0 = 0 ∧ w.get .sp = u.get .sp ∧
      w.mem = u.mem ∧
      L.image.Leads ttyDequeueWriteCode (ttyDequeueWriteCode.drop 8) v (ttyDequeueWriteCode.drop 10) w := by
    refine ⟨_, ?_, ?_, ?_, .bnez_of_eq hva0 (.op .refl)⟩
    · rw [get_exec_lw (by decide), hvmem, hvq .s0 (by decide), hus0]
      exact hidle.writes
    · rw [get_exec_of_ne (by decide), hvq .sp (by decide)]
    · rw [mem_exec_of_dest (by decide), hvmem]
  obtain ⟨e, he, htarget, hesp, hera, hea0, hemem⟩ := ttyDequeueWrite_return L w
  have hto := ((hlead.trans hcall).trans hlook).trans (.beqz_of_eq hwa0 .refl)
  refine ⟨L.finish e, ⟨e, hto.exits he, ⟨?_, ?_⟩, rfl⟩, ?_, ?_⟩
  · rw [hesp, hwsp, husp]
    exact frame_up_down _ 8
  · rw [hera, hwmem, hwsp, husp, humem, word_setWord]
  · rw [TtyLink.finish, htarget]
    exact hea0.trans hwa0
  · rw [TtyLink.finish, htarget]
    show L.LeftAlone m e.hart.mem
    rwa [hemem, hwmem]

/-! ## A backspace or a new line -/

/-- As far as an echo is concerned, `v` is `u` still. -/
structure SameEcho (u v : Hart) : Prop where
  sp_eq : v.get .sp = u.get .sp
  a0_eq : v.get .a0 = u.get .a0
  mem_eq : v.mem = u.mem

namespace SameEcho

variable {u v : Hart}

theorem li {rd : Reg} (h : SameEcho u v) (hsp : rd ≠ .sp) (ha0 : rd ≠ .a0) (c : Word) :
    SameEcho u (L.image.exec (.li rd c) v) := by
  refine ⟨Eq.trans ?_ h.sp_eq, Eq.trans ?_ h.a0_eq, Eq.trans ?_ h.mem_eq⟩
  · exact get_exec_of_ne (o := .li rd c) fun heq => hsp (Option.some.inj heq)
  · exact get_exec_of_ne (o := .li rd c) fun heq => ha0 (Option.some.inj heq)
  · exact mem_exec_of_dest (o := .li rd c) (Option.some_ne_none rd)

/-- There is no room for what is echoed. -/
theorem call (h : SameEcho u v) (hempty : FifoEmpty u.mem (u.get .a0)) (r : Word) :
    SameEcho u (L.image.callee .fifoEnqueue (v.set .ra r)) := by
  have hv : FifoEmpty v.mem (v.get .a0) := by rwa [h.mem_eq, h.a0_eq]
  obtain ⟨hq, hmem⟩ := fifoEnqueue_call (L := L) hv r
  refine ⟨?_, ?_, ?_⟩
  · rw [hq .sp (by decide), h.sp_eq]
  · rw [hq .a0 (by decide), h.a0_eq]
  · rw [hmem, h.mem_eq]

end SameEcho

/-- The last lines of both echoes. -/
theorem ttyEcho_leave {u v : Hart} {code a rest : Code} (h : SameEcho u v)
    (hlead : L.image.Leads code a u (.op (.lw .ra 0 .sp) :: .op (.addi .sp .sp 4) :: .tail .fifoEnqueue :: rest) v) :
    ∃ e, L.image.Exits code a u e ∧ e.target = some .fifoEnqueue ∧ e.hart.get .sp = u.get .sp + 4 ∧
      e.hart.get .ra = word u.mem (u.get .sp) 0 ∧ e.hart.get .a0 = u.get .a0 ∧ e.hart.mem = u.mem := by
  refine ⟨_, Leads.exits_tail (hlead.trans (.op (.op .refl))), rfl, ?_, ?_, ?_, ?_⟩
  · simp (disch := decide) only [get_exec_of_ne, get_exec_addi, h.sp_eq]
  · simp (disch := decide) only [get_exec_of_ne, get_exec_lw, h.sp_eq, h.mem_eq]
  · simp (disch := decide) only [get_exec_of_ne, h.a0_eq]
  · simp (disch := decide) only [mem_exec_of_dest, h.mem_eq]

/-- **Idle, a backspace or a new line** changes nothing, and control comes back. -/
theorem recieve_idle (h : TtyIdle L m) (hs : L.StackOk reg m)
    (hc : reg .a0 = backspace ∨ reg .a0 = newLine) : ∃ t,
    TtyStep L ttyRecieveHalf ttyEnqueueRecieveCode reg m t ∧ L.LeftAlone m t.mem := by
  obtain ⟨u, husp, hua0, hua1, hut0, humem, hlead⟩ := ttyEnqueueRecieve_enter L.image ⟨reg, m⟩
  have halter : Alters [⟨reg .sp + -BitVec.ofNat 32 4, 4⟩] m u.mem := by
    rw [humem]
    exact (Alters.refl _ _).setWord (.part List.mem_cons_self (by decide))
  have halone : L.LeftAlone m u.mem := hs.leftAlone (by decide) halter
  have hempty : FifoEmpty u.mem (u.get .a0) := by
    rw [hua0]
    exact (h.leftAlone halone).echo
  obtain ⟨e, he, htarget, hesp, hera, hea0, hemem⟩ : ∃ e,
      L.image.Exits ttyRecieveHalf (ttyEnqueueRecieveCode.drop 8) u e ∧ e.target = some .fifoEnqueue ∧
        e.hart.get .sp = u.get .sp + 4 ∧ e.hart.get .ra = word u.mem (u.get .sp) 0 ∧
        e.hart.get .a0 = u.get .a0 ∧ e.hart.mem = u.mem := by
    have hsame : SameEcho u u := ⟨rfl, rfl, rfl⟩
    rcases hc with hc | hc
    · have heq : u.get .a1 = u.get .t0 := by
        rw [hua1, hut0]
        exact hc
      refine ttyEcho_leave ?_ (.beq_of_eq heq (.label (.call (.op (.call (.op .refl))))))
      exact (((hsame.call hempty _).li (by decide) (by decide) space).call hempty _).li (by decide)
        (by decide) backspace
    · have hne : u.get .a1 ≠ u.get .t0 := by
        rw [hua1, hut0]
        show reg .a0 ≠ backspace
        rw [hc]
        decide
      have heq : (L.image.exec (.li .t0 newLine) u).get .a1 = (L.image.exec (.li .t0 newLine) u).get .t0 := by
        rw [get_exec_of_ne (by decide), get_exec_li (by decide), hua1]
        exact hc
      refine ttyEcho_leave ?_ (.beq_of_ne hne (.op (.beq_of_eq heq (.label (.op (.call (.op .refl)))))))
      exact (((hsame.li (by decide) (by decide) newLine).li (by decide) (by decide)
        carriageReturn).call hempty _).li (by decide) (by decide) newLine
  have hfinish : (L.finish e).mem = u.mem := by
    rw [TtyLink.finish, htarget]
    show fifoEnqueue e.hart.mem (e.hart.get .a0) (e.hart.get .a1) = u.mem
    rw [hemem, hea0]
    exact fifoEnqueue_empty hempty _
  refine ⟨L.finish e, ⟨e, hlead.exits he, ⟨?_, ?_⟩, rfl⟩, ?_⟩
  · rw [hesp, husp]
    exact frame_up_down _ 4
  · rw [hera, husp, humem, word_setWord]
  · rwa [hfinish]

/-! ## Runs -/

theorem TtyIdle.writes_nil (h : TtyIdle L m) : L.Writes m [] := h.writes

theorem TtyIdle.reads_nil (h : TtyIdle L m) : L.Reads m [] [] := ⟨h.reads, h.rx.represents⟩

/-- No request is made, and no character comes in but a backspace or a new line. -/
def TtyEvent.WritesIdle : TtyEvent → Prop
  | .recieve reg => reg .a0 = backspace ∨ reg .a0 = newLine
  | .transmit _ | .other _ => True
  | .write _ | .read _ => False

/-- No request is made, and no character comes in but a backspace. -/
def TtyEvent.ReadsIdle : TtyEvent → Prop
  | .recieve reg => reg .a0 = backspace
  | .transmit _ | .other _ => True
  | .write _ | .read _ => False

variable (L) (phys : Ptr → Word → Word)

/-- **Write requests are served** in every run without one. -/
theorem writes_delivered (es : List TtyEvent) (m : Mem) (h : TtyIdle L m) (hes : ∀ e ∈ es, e.WritesIdle) :
    WritesDelivered L phys es m [] := by
  induction es generalizing m with
  | nil => exact h.writes_nil
  | cons e es ih =>
    rw [List.forall_mem_cons] at hes
    obtain ⟨he, hrest⟩ := hes
    cases e with
    | recieve reg =>
      refine ⟨h.writes_nil, fun hs => ?_⟩
      obtain ⟨t, ht, hl⟩ := recieve_idle h hs he
      exact ⟨t, ht, List.forall_mem_nil _, ih t.mem (h.leftAlone hl) hrest⟩
    | transmit reg =>
      refine ⟨h.writes_nil, fun hs => ?_⟩
      obtain ⟨t, ht, ha0, hl⟩ := transmit_idle h hs
      have hecho : (fifoDequeue m (L.tty m + BitVec.ofNat 32 echoFifo)).2 = 0 := by
        rw [fifoDequeue_empty h.echo]
      refine ⟨t, ht, ?_⟩
      show if _ then _ else _
      rw [if_neg (not_not.2 hecho)]
      exact ⟨ha0, ih t.mem (h.leftAlone hl) hrest⟩
    | other m' => exact ⟨h.writes_nil, fun hl => ih m' (h.leftAlone hl) hrest⟩
    | write reg => exact he.elim
    | read reg => exact he.elim

/-- **Input is delivered** in every run without any. -/
theorem reads_delivered (es : List TtyEvent) (m : Mem) (h : TtyIdle L m) (hes : ∀ e ∈ es, e.ReadsIdle) :
    ReadsDelivered L phys es m [] [] := by
  induction es generalizing m with
  | nil => exact h.reads_nil
  | cons e es ih =>
    rw [List.forall_mem_cons] at hes
    obtain ⟨he, hrest⟩ := hes
    cases e with
    | recieve reg =>
      refine ⟨h.reads_nil, fun hs => ?_⟩
      obtain ⟨t, ht, hl⟩ := recieve_idle h hs (Or.inl he)
      show if _ then _ else _
      rw [if_pos (show reg .a0 = backspace from he)]
      exact ⟨t, ht, List.forall_mem_nil _, ih t.mem (h.leftAlone hl) hrest⟩
    | transmit reg =>
      refine ⟨h.reads_nil, fun hs => ?_⟩
      obtain ⟨t, ht, -, hl⟩ := transmit_idle h hs
      exact ⟨t, ht, List.forall_mem_nil _, ih t.mem (h.leftAlone hl) hrest⟩
    | other m' => exact ⟨h.reads_nil, fun hl => ih m' (h.leftAlone hl) hrest⟩
    | write reg => exact he.elim
    | read reg => exact he.elim

/-! ## Examples -/

/-- A kernel with room on its heap. -/
def demoLink : TtyLink where
  ttyInfo := 0x800
  currentPcb := 0x804
  point n := 0x400 - BitVec.ofNat 32 (4 * n)
  kmalloc s := (s.set .a0 0x5000).set .a1 0x5000
  kfree := id
  schedule := id
  fuel := 40

/-- Its TTY, and a process at `0x3000` with two bytes at `0x6000`. -/
def demoMem : Mem :=
  demoLink.ttyInit (setByte (setByte (setWord (fun _ => 0) 0x804 0 0x3000) 0x6000 0 72) 0x6000 1 105)
    0x1000 0x2000 0x2100

theorem demoMem_idle : TtyIdle demoLink demoMem := ttyInit_idle _ _ _ _ _ (by decide)

/-- The registers of a call, with its arguments. -/
def demoReg (a0 a1 a2 : Word) : Reg → Word
  | .a0 => a0
  | .a1 => a1
  | .a2 => a2
  | .sp => 0x4000
  | .ra => 0x500
  | _ => 0

theorem demo_stackOk (a0 a1 a2 : Word) {m : Mem} (h : demoLink.tty m = 0x1000) :
    demoLink.StackOk (demoReg a0 a1 a2) m := by
  have happart : ∀ n ≤ 32, (Span.mk ((0x4000 : Word) + -BitVec.ofNat 32 n) n).Apart ⟨0x800, 4⟩ ∧
      (Span.mk ((0x4000 : Word) + -BitVec.ofNat 32 n) n).Apart ⟨0x1000, ttyStructSize⟩ := by decide
  intro n hn
  rw [h]
  exact happart n hn

/-- Characters treated apart, and interrupts in between. -/
theorem writes_delivered_demo : WritesDelivered demoLink (fun _ v => v)
    [.recieve (demoReg backspace 0 0), .transmit (demoReg 0 0 0), .recieve (demoReg newLine 0 0)]
    demoMem [] :=
  writes_delivered demoLink _ _ demoMem demoMem_idle (by simp [TtyEvent.WritesIdle, demoReg])

theorem reads_delivered_demo : ReadsDelivered demoLink (fun _ v => v)
    [.recieve (demoReg backspace 0 0), .transmit (demoReg 0 0 0)] demoMem [] [] :=
  reads_delivered demoLink _ _ demoMem demoMem_idle (by simp [TtyEvent.ReadsIdle, demoReg])

/-- The process asks for its two bytes to be written, -/
def demoWrite : Exit Fn :=
  (demoLink.image.run ecallWriteCode 20 (ecallWriteCode, ⟨demoReg 0x3000 0x6000 2, demoMem⟩)).get
    (by decide +kernel)

/-- and a transmit interrupt comes. -/
def demoTransmit : Exit Fn :=
  (demoLink.image.run ttyDequeueWriteCode 40
    (ttyDequeueWriteCode, ⟨demoReg 0 0 0, (demoLink.finish demoWrite).mem⟩)).get (by decide +kernel)

/-- **Neither byte is written**: the interrupt gets nothing. -/
theorem writes_lost :
    TtyStep demoLink ecallWriteCode ecallWriteCode (demoReg 0x3000 0x6000 2) demoMem
      (demoLink.finish demoWrite) ∧
    TtyStep demoLink ttyDequeueWriteCode ttyDequeueWriteCode (demoReg 0 0 0)
      (demoLink.finish demoWrite).mem (demoLink.finish demoTransmit) ∧
    (demoLink.finish demoWrite).mem 0x6000 = 72 ∧ (demoLink.finish demoTransmit).get .a0 = 0 ∧
    ¬ WritesDelivered demoLink (fun _ v => v)
      [.write (demoReg 0x3000 0x6000 2), .transmit (demoReg 0 0 0)] demoMem [] := by
  have hwrite : TtyStep demoLink ecallWriteCode ecallWriteCode (demoReg 0x3000 0x6000 2) demoMem
      (demoLink.finish demoWrite) :=
    ⟨demoWrite, exits_of_run (Option.some_get (by decide +kernel)).symm,
      ⟨by decide +kernel, by decide +kernel⟩, rfl⟩
  have htransmit : TtyStep demoLink ttyDequeueWriteCode ttyDequeueWriteCode (demoReg 0 0 0)
      (demoLink.finish demoWrite).mem (demoLink.finish demoTransmit) :=
    ⟨demoTransmit, exits_of_run (Option.some_get (by decide +kernel)).symm,
      ⟨by decide +kernel, by decide +kernel⟩, rfl⟩
  refine ⟨hwrite, htransmit, by decide +kernel, by decide +kernel, fun h => ?_⟩
  obtain ⟨t, ht, -, hrest⟩ := h.2 (demo_stackOk _ _ _ (by decide +kernel)) (by decide)
  obtain rfl := ht.unique hwrite
  -- the request is not among those of the TTY
  have hhead : word (demoLink.finish demoWrite).mem (demoLink.tty (demoLink.finish demoWrite).mem)
      ttyWriteQueueHead = null := by decide +kernel
  exact hrest.1.1 hhead

/-- **A new line is echoed, and lost.** -/
theorem newLine_lost {L : TtyLink} {phys : Ptr → Word → Word} {reg : Reg → Word} {m : Mem}
    (h : TtyIdle L m) (hs : L.StackOk reg m) (hc : reg .a0 = newLine) :
    ¬ ReadsDelivered L phys [.recieve reg] m [] [] := by
  intro hall
  have hne : reg .a0 ≠ backspace := by
    rw [hc]
    decide
  have hroom : ([] : List Byte).length < (byte m (L.tty m + BitVec.ofNat 32 rxFifo) fifoSize).toNat - 1 := by
    have hsize := h.rx.le_size
    rw [List.length_nil]
    omega
  have hkept := hall.2 hs
  rw [if_neg hne] at hkept
  obtain ⟨t, ht, -, hrx⟩ := hkept hroom
  obtain ⟨t', ht', hl⟩ := recieve_idle h hs (Or.inr hc)
  obtain rfl := ht.unique ht'
  exact absurd ((h.leftAlone hl).rx.eq_nil hrx) (by simp)

theorem newLine_lost_demo : ¬ ReadsDelivered demoLink (fun _ v => v)
    [.recieve (demoReg newLine 0 0)] demoMem [] [] :=
  newLine_lost demoMem_idle (demo_stackOk _ _ _ (by decide +kernel)) rfl

end RiscyOS
